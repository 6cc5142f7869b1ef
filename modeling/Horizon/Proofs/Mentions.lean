import Mathlib.Data.List.Infix
import Horizon.Proofs.Enumeration
import Horizon.Proofs.Stores

/-! What a space holds after any calls.

Every state that a call passes, or samples from a domain, is known afterwards, and no other one is
(`Knows.serve`). What is asked for one at a time is not enumerated; of the others, each call appends
those that were not known, at their first occurrence. So the states that were seen before tell what
the next call answers and what it appends, and nothing else of what happened does.
-/

set_option autoImplicit false

namespace Horizon

variable {σ α ρ : Type} [DecidableEq σ]

namespace StateSpace

inductive Call (σ α ρ : Type) where
  | getState (s : σ)
  | getOrCreate (s : σ)
  | extend (states : List σ)
  | materialize (P : Problem σ α ρ)

inductive Answer (σ : Type) where
  | state (s : σ)
  | created (s : σ) (isNew : Bool)
  | count (n : Nat)

def Answer.counted : Answer σ → Nat
  | .count n => n
  | _ => 0

def serve (space : StateSpace σ) : Call σ α ρ → Answer σ × StateSpace σ
  | .getState s => (.state s, (space.mention s).2)
  | .getOrCreate s => (.created s (space.mention s).1, (space.mention s).2)
  | .extend states => (.count (space.extend states).1, (space.extend states).2)
  | .materialize P => (.count (space.materialize P).1, (space.materialize P).2)

def serveAll (space : StateSpace σ) : List (Call σ α ρ) → List (Answer σ) × StateSpace σ
  | [] => ([], space)
  | call :: rest =>
    let (answer, space) := space.serve call
    let (answers, space) := space.serveAll rest
    (answer :: answers, space)

theorem serveAll_cons (space : StateSpace σ) (call : Call σ α ρ) (rest : List (Call σ α ρ)) :
    space.serveAll (call :: rest) =
      ((space.serve call).1 :: ((space.serve call).2.serveAll rest).1,
        ((space.serve call).2.serveAll rest).2) :=
  rfl

def passed (space : StateSpace σ) : Call σ α ρ → List σ
  | .getState s => [s]
  | .getOrCreate s => [s]
  | .extend states => states
  | .materialize P => space.sampledDomain P

def mentioned (space : StateSpace σ) (calls : List (Call σ α ρ)) : List σ :=
  calls.flatMap space.passed

def offered (space : StateSpace σ) : Call σ α ρ → List σ
  | .getState _ => []
  | .getOrCreate _ => []
  | .extend states => states
  | .materialize P => space.sampledDomain P

def unseen (seen states : List σ) : List σ :=
  (states.filter fun s => decide (s ∉ seen)).eraseDups

def answer (space : StateSpace σ) (seen : List σ) : Call σ α ρ → Answer σ
  | .getState s => .state s
  | .getOrCreate s => .created s (decide (s ∉ seen))
  | .extend states => .count (unseen seen states).length
  | .materialize P => .count (unseen seen (space.sampledDomain P)).length

variable {start space : StateSpace σ} {seen : List σ}

theorem sampledDomain_of_framed (framed : Framed start space) (P : Problem σ α ρ) :
    space.sampledDomain P = start.sampledDomain P := by
  obtain ⟨period, sampling, seed⟩ := framed
  rw [sampledDomain, sampledDomain, period, sampling, seed]

/-- A space that knows the states that were seen, and lists some of them, none twice. -/
structure Knows (start : StateSpace σ) (seen : List σ) (space : StateSpace σ) : Prop where
  framed : Framed start space
  known : ∀ s, space.contains s = true ↔ s ∈ seen
  distinct : space.enumerated.Nodup
  listed : ∀ s ∈ space.enumerated, s ∈ seen

theorem knows_empty [Hashable σ] (period : Nat) (storage : StorageConfig) (sampling : Sampling)
    (seed : UInt64) : Knows (.empty period storage sampling seed : StateSpace σ) []
      (.empty period storage sampling seed) where
  framed := ⟨rfl, rfl, rfl⟩
  known s := by simp [empty, contains, Store.contains]
  distinct := .nil
  listed s member := member

namespace Knows

variable (knows : Knows start seen space)

include knows

theorem not_contains_eq (s : σ) : (!space.contains s) = decide (s ∉ seen) := by
  rw [Bool.eq_iff_iff, Bool.not_eq_true', Bool.eq_false_iff, decide_eq_true_iff, Ne, knows.known]

theorem newOnes_eq (xs : List σ) : newOnes space.contains xs = unseen seen xs := by
  simp only [newOnes_eq_eraseDups, unseen, knows.not_contains_eq]

theorem size_eq : space.size = seen.toFinset.card := by
  have keys : {s | space.members.contains s = true} = (seen.toFinset : Set σ) := by
    ext s
    rw [List.coe_toFinset]
    exact knows.known s
  have card := space.members.encard_keys
  rw [keys, Set.encard_coe_eq_coe_finsetCard] at card
  exact_mod_cast card.symm

theorem mention (s : σ) : Knows start (seen ++ [s]) (space.mention s).2 where
  framed := knows.framed.trans (space.framed_mention s)
  known s' := by
    rw [contains_mention, Bool.or_eq_true, knows.known, beq_iff_eq, List.mem_append,
      List.mem_singleton, or_comm, eq_comm]
  distinct := by
    rw [enumerated_mention]
    exact knows.distinct
  listed s' member := by
    rw [enumerated_mention] at member
    exact List.mem_append_left _ (knows.listed s' member)

theorem extend (xs : List σ) : Knows start (seen ++ xs) (space.extend xs).2 where
  framed := knows.framed.trans (space.framed_extend xs)
  known s := by
    rw [contains_extend, Bool.or_eq_true, knows.known, decide_eq_true_iff, List.mem_append]
  distinct := by
    rw [enumerated_extend, List.nodup_append]
    refine ⟨knows.distinct, nodup_newOnes _ _, fun s listed s' member same => ?_⟩
    have unknown := (mem_newOnes.1 member).2
    rw [← same, (knows.known s).2 (knows.listed s listed)] at unknown
    cases unknown
  listed s member := by
    rw [enumerated_extend, List.mem_append, mem_newOnes] at member
    rcases member with old | ⟨new, -⟩
    · exact List.mem_append_left _ (knows.listed s old)
    · exact List.mem_append_right _ new

variable (call : Call σ α ρ)

-- What one call preserves.
theorem serve : Knows start (seen ++ start.passed call) (space.serve call).2 := by
  cases call with
  | getState s => exact knows.mention s
  | getOrCreate s => exact knows.mention s
  | extend states => exact knows.extend states
  | materialize P =>
    rw [passed, ← sampledDomain_of_framed knows.framed P]
    exact knows.extend (space.sampledDomain P)

theorem enumerated_serve : (space.serve call).2.enumerated =
    space.enumerated ++ unseen seen (start.offered call) := by
  cases call with
  | getState s => exact (enumerated_mention space s).trans (List.append_nil _).symm
  | getOrCreate s => exact (enumerated_mention space s).trans (List.append_nil _).symm
  | extend states =>
    rw [offered, ← knows.newOnes_eq]
    exact enumerated_extend space states
  | materialize P =>
    rw [offered, ← sampledDomain_of_framed knows.framed P, ← knows.newOnes_eq]
    exact enumerated_extend space _

theorem answer_serve : (space.serve call).1 = start.answer seen call := by
  cases call with
  | getState s => rfl
  | getOrCreate s =>
    rw [answer, ← knows.not_contains_eq, ← fst_mention]
    rfl
  | extend states =>
    rw [answer, ← knows.newOnes_eq, ← fst_extend]
    rfl
  | materialize P =>
    rw [answer, ← sampledDomain_of_framed knows.framed P, ← knows.newOnes_eq, ← fst_extend]
    rfl

theorem counted_serve : (space.serve call).1.counted + space.enumerated.length =
    (space.serve call).2.enumerated.length := by
  rw [knows.answer_serve, knows.enumerated_serve, List.length_append, Nat.add_comm]
  cases call <;> rfl

omit call

variable (calls : List (Call σ α ρ))

theorem serveAll : Knows start (seen ++ start.mentioned calls) (space.serveAll calls).2 := by
  induction calls generalizing space seen with
  | nil =>
    rw [mentioned, List.flatMap_nil, List.append_nil]
    exact knows
  | cons call rest ih =>
    rw [mentioned, List.flatMap_cons, ← List.append_assoc, serveAll_cons]
    exact ih (knows.serve call)

theorem counted_serveAll :
    ((space.serveAll calls).1.map Answer.counted).sum + space.enumerated.length =
      (space.serveAll calls).2.enumerated.length := by
  induction calls generalizing space seen with
  | nil => exact Nat.zero_add _
  | cons call rest ih =>
    have later := ih (knows.serve call)
    have first := knows.counted_serve call
    rw [serveAll_cons, List.map_cons, List.sum_cons]
    dsimp only
    omega

theorem prefix_serveAll : space.enumerated <+: (space.serveAll calls).2.enumerated := by
  induction calls generalizing space seen with
  | nil => exact List.prefix_rfl
  | cons call rest ih =>
    have first : space.enumerated <+: (space.serve call).2.enumerated := by
      rw [knows.enumerated_serve]
      exact List.prefix_append _ _
    rw [serveAll_cons]
    exact first.trans (ih (knows.serve call))

omit calls

theorem serve_materialize {P : Problem σ α ρ} (seen_all : ∀ s ∈ start.sampledDomain P, s ∈ seen) :
    space.serve (.materialize P) = (.count 0, space) := by
  have known : ∀ s ∈ space.sampledDomain P, space.contains s = true := by
    rw [sampledDomain_of_framed knows.framed]
    exact fun s member => (knows.known s).2 (seen_all s member)
  rw [StateSpace.serve, StateSpace.materialize, extend_of_known known]

end Knows

/-- What a space is after some calls. The states that were mentioned are known, and they alone; they
tell what the next call answers and what it appends. Later calls remove nothing, and a domain that
was materialized gives nothing new. -/
structure Reflects (start : StateSpace σ) (calls : List (Call σ α ρ)) (space : StateSpace σ) :
    Prop where
  size_eq : space.size = (start.mentioned calls).toFinset.card
  known : ∀ s, space.contains s = true ↔ s ∈ start.mentioned calls
  distinct : space.enumerated.Nodup
  listed : ∀ s ∈ space.enumerated, space.contains s = true
  answer_eq : ∀ call : Call σ α ρ, (space.serve call).1 = start.answer (start.mentioned calls) call
  enumerated_eq : ∀ call : Call σ α ρ, (space.serve call).2.enumerated =
    space.enumerated ++ unseen (start.mentioned calls) (start.offered call)
  kept : ∀ later : List (Call σ α ρ),
    (∀ s, space.contains s = true → (space.serveAll later).2.contains s = true) ∧
      space.enumerated <+: (space.serveAll later).2.enumerated
  repeated : ∀ P Q : Problem σ α ρ, .materialize Q ∈ calls → P.domain start.period =
    Q.domain start.period → space.serve (.materialize P) = (.count 0, space)

end StateSpace

open StateSpace

/-- Whatever is called on a new space, it reflects what was mentioned, and the counts that were
answered sum to the length of the enumeration. -/
theorem space_reflects_mentions [Hashable σ] (period : Nat) (storage : StorageConfig)
    (sampling : Sampling) (seed : UInt64) (calls : List (Call σ α ρ)) :
    let start : StateSpace σ := .empty period storage sampling seed
    Reflects start calls (start.serveAll calls).2 ∧
      ((start.serveAll calls).1.map Answer.counted).sum =
        (start.serveAll calls).2.enumerated.length := by
  intro start
  have vacant : Knows start [] start := knows_empty period storage sampling seed
  have knows : Knows start (start.mentioned calls) (start.serveAll calls).2 :=
    vacant.serveAll calls
  refine ⟨?_, vacant.counted_serveAll calls⟩
  exact
    { size_eq := knows.size_eq
      known := knows.known
      distinct := knows.distinct
      listed := fun s member => (knows.known s).2 (knows.listed s member)
      answer_eq := knows.answer_serve
      enumerated_eq := knows.enumerated_serve
      kept := fun later => by
        refine ⟨fun s member => ?_, knows.prefix_serveAll later⟩
        refine ((knows.serveAll later).known s).2 ?_
        exact List.mem_append_left _ ((knows.known s).1 member)
      repeated := fun P Q called same => by
        refine knows.serve_materialize fun s member => ?_
        refine List.mem_flatMap.2 ⟨_, called, ?_⟩
        rw [sampledDomain, same] at member
        exact member }

-- Three is known when it is offered, and five is offered twice.
example : let calls : List (Call Nat Unit Unit) := [.getOrCreate 3, .extend [5, 3, 5, 4]]
    ((empty 0 .default .exhaustive 7 : StateSpace Nat).serveAll calls).2.enumerated = [5, 4] := by
  decide

end Horizon
