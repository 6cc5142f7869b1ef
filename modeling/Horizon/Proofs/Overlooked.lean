import Mathlib.Order.Defs.Unbundled
import Horizon.Proofs.Contracts
import Horizon.Proofs.Coverage
import Horizon.Proofs.Mentions

/-! States that a space knows and never enumerates.

A space enumerates a state when it is first mentioned, or not at all: a state that is looked up
before its domain is materialized is skipped then as one that is known, and no later call makes up
for it (`mem_enumerated_materialize`). A backward recursion decides what its spaces enumerate. Its
spaces can be called before it generates its states: then what was looked up stays without a
decision, and a run can still succeed.
-/

set_option autoImplicit false

namespace Horizon

variable {σ α ρ : Type} [DecidableEq σ]

namespace StateSpace

/-- A call that asks for a state, and makes it known without enumerating it. -/
def LooksUp (call : Call σ α ρ) (s : σ) : Prop :=
  call = .getState s ∨ call = .getOrCreate s

def firstMention? (start : StateSpace σ) (calls : List (Call σ α ρ)) (s : σ) :
    Option (Call σ α ρ) :=
  calls.find? fun call => decide (s ∈ start.passed call)

/-- A state is overlooked when the call that mentions it first looks it up. -/
def Overlooks (start : StateSpace σ) (calls : List (Call σ α ρ)) (s : σ) : Prop :=
  ∃ call ∈ start.firstMention? calls s, LooksUp call s

variable {start space : StateSpace σ} {seen : List σ} {s : σ}

theorem mem_passed_of_mem_offered {call : Call σ α ρ} (offers : s ∈ start.offered call) :
    s ∈ start.passed call := by
  cases call with
  | getState _ => cases offers
  | getOrCreate _ => cases offers
  | extend _ => exact offers
  | materialize _ => exact offers

-- What mentions a state looks it up or enumerates it.
theorem looksUp_iff {call : Call σ α ρ} (passes : s ∈ start.passed call) :
    LooksUp call s ↔ s ∉ start.offered call := by
  cases call with
  | getState s' => simpa [LooksUp, offered, passed, eq_comm] using passes
  | getOrCreate s' => simpa [LooksUp, offered, passed, eq_comm] using passes
  | extend _ => simpa [LooksUp, offered, passed] using passes
  | materialize _ => simpa [LooksUp, offered, passed] using passes

theorem overlooks_iff {calls : List (Call σ α ρ)} : start.Overlooks calls s ↔
    ∃ call ∈ start.firstMention? calls s, s ∉ start.offered call := by
  refine exists_congr fun call => and_congr_right fun first => looksUp_iff ?_
  have mentions := List.find?_some (p := fun call => decide (s ∈ start.passed call)) first
  exact of_decide_eq_true mentions

theorem Knows.mem_enumerated_serve (knows : Knows start seen space) (call : Call σ α ρ) :
    s ∈ (space.serve call).2.enumerated ↔
      s ∈ space.enumerated ∨ s ∉ seen ∧ s ∈ start.offered call := by
  simp only [knows.enumerated_serve, unseen, List.mem_append, List.mem_eraseDups, List.mem_filter,
    decide_eq_true_iff, and_comm]

theorem Knows.mem_enumerated_serveAll (knows : Knows start seen space)
    (calls : List (Call σ α ρ)) :
    s ∈ (space.serveAll calls).2.enumerated ↔ s ∈ space.enumerated ∨
      s ∉ seen ∧ ∃ call ∈ start.firstMention? calls s, s ∈ start.offered call := by
  induction calls generalizing space seen with
  | nil => simp [StateSpace.serveAll, firstMention?]
  | cons call rest ih =>
    have later := ih (knows.serve call)
    rw [knows.mem_enumerated_serve] at later
    rw [serveAll_cons, later]
    by_cases mentioned : s ∈ start.passed call
    · simp [firstMention?, mentioned]
    · have unoffered : s ∉ start.offered call := fun offers =>
        mentioned (mem_passed_of_mem_offered offers)
      simp [firstMention?, mentioned, unoffered]

theorem snd_serveAll_append (space : StateSpace σ) (calls later : List (Call σ α ρ)) :
    (space.serveAll (calls ++ later)).2 = ((space.serveAll calls).2.serveAll later).2 := by
  induction calls generalizing space with
  | nil => rfl
  | cons call rest ih =>
    rw [List.cons_append, serveAll_cons, serveAll_cons]
    exact ih (space.serve call).2

section Vacant

variable (vacant : Knows start [] start) (calls later : List (Call σ α ρ))

include vacant

theorem mem_enumerated_serveAll : s ∈ (start.serveAll calls).2.enumerated ↔
    ∃ call ∈ start.firstMention? calls s, s ∈ start.offered call := by
  have unlisted : s ∉ start.enumerated := fun listed =>
    List.not_mem_nil (vacant.listed s listed)
  rw [vacant.mem_enumerated_serveAll]
  simp [unlisted]

-- The first mention settles it, whatever comes after it.
theorem not_mem_enumerated_of_overlooks (overlooks : start.Overlooks calls s) :
    s ∉ (start.serveAll (calls ++ later)).2.enumerated := by
  obtain ⟨call, first, unoffered⟩ := overlooks_iff.1 overlooks
  have found : start.firstMention? (calls ++ later) s = some call := by
    rw [firstMention?, List.find?_append]
    exact congrArg (Option.or · _) first
  rw [mem_enumerated_serveAll vacant, found]
  simpa using unoffered

/-- A state of the sample is enumerated when its period is materialized, and from then on, unless
it was overlooked before. -/
theorem mem_enumerated_materialize {P : Problem σ α ρ} (sampled : s ∈ start.sampledDomain P) :
    s ∈ (start.serveAll (calls ++ .materialize P :: later)).2.enumerated ↔
      ¬start.Overlooks calls s := by
  constructor
  · intro listed overlooks
    exact not_mem_enumerated_of_overlooks vacant calls _ overlooks listed
  · intro heeded
    have passes : decide (s ∈ start.passed (.materialize P : Call σ α ρ)) = true :=
      decide_eq_true sampled
    rw [overlooks_iff] at heeded
    rw [mem_enumerated_serveAll vacant, firstMention?, List.find?_append]
    cases first : start.firstMention? calls s with
    | none =>
      rw [firstMention?] at first
      rw [first, Option.none_or, List.find?_cons, passes]
      exact ⟨_, rfl, sampled⟩
    | some call =>
      have offers := not_not.1 fun unoffered => heeded ⟨call, first, unoffered⟩
      rw [firstMention?] at first
      rw [first, Option.some_or]
      exact ⟨call, rfl, offers⟩

end Vacant

end StateSpace

def vacantSpace [Hashable σ] (config : Config ρ) (t : Nat) : StateSpace σ :=
  .empty t config.storage config.stateSampling config.seed

namespace Backward

open LedgerM

def listed (spaces : List (StateSpace σ)) : List σ :=
  spaces.flatMap StateSpace.enumerated

theorem mem_listed_of_drop {spaces : List (StateSpace σ)} {n : Nat} {s : σ}
    (member : s ∈ listed (spaces.drop n)) : s ∈ listed spaces := by
  obtain ⟨space, later, enumerated⟩ := List.mem_flatMap.1 member
  exact List.mem_flatMap.2 ⟨space, List.mem_of_mem_drop later, enumerated⟩

theorem listed_eq (spaces : List (StateSpace σ)) :
    listed spaces = listed spaces.dropLast ++ listed spaces.getLast?.toList := by
  have split : spaces.dropLast ++ spaces.getLast?.toList = spaces := by
    cases isLast : spaces.getLast? with
    | none =>
      rw [List.getLast?_eq_none_iff] at isLast
      rw [isLast]
      rfl
    | some last => exact List.dropLast_append_getLast? last isLast
  rw [listed, listed, listed, ← List.flatMap_append, split]

section Traced

variable [Hashable σ] {P : Problem σ α ρ} {config : Config ρ} {t : Nat} {space : StateSpace σ}

structure Traced (P : Problem σ α ρ) (config : Config ρ) (t : Nat)
    (calls : List (StateSpace.Call σ α ρ)) (space : StateSpace σ) : Prop where
  reached : space = ((vacantSpace config t).serveAll calls).2
  inPeriod : ∀ s ∈ space.enumerated, P.period s = t

variable {calls : List (StateSpace.Call σ α ρ)}

theorem knows_vacantSpace (config : Config ρ) (t : Nat) :
    StateSpace.Knows (vacantSpace config t : StateSpace σ) [] (vacantSpace config t) :=
  StateSpace.knows_empty t config.storage config.stateSampling config.seed

theorem Traced.extend (traced : Traced P config t calls space) {xs : List σ}
    (inPeriod : ∀ s ∈ xs, P.period s = t) :
    Traced P config t (calls ++ [.extend xs]) (space.extend xs).2 where
  reached := by
    rw [StateSpace.snd_serveAll_append, ← traced.reached]
    rfl
  inPeriod s member := by
    rw [StateSpace.enumerated_extend, List.mem_append, mem_newOnes] at member
    rcases member with listed | ⟨member, -⟩
    · exact traced.inPeriod s listed
    · exact inPeriod s member

theorem Traced.period_eq (traced : Traced P config t calls space) : space.period = t := by
  rw [traced.reached]
  exact ((knows_vacantSpace config t).serveAll calls).framed.1

theorem Traced.materialize (lawful : P.Lawful) (traced : Traced P config t calls space) :
    Traced P config t (calls ++ [.materialize P]) (space.materialize P).2 where
  reached := by
    rw [StateSpace.snd_serveAll_append, ← traced.reached]
    rfl
  inPeriod := by
    refine (traced.extend fun s member => ?_).inPeriod
    rw [← traced.period_eq]
    exact lawful.period_domain _ s (StateSpace.mem_domain_of_mem_sampledDomain member)

end Traced

section Spaces

variable [Hashable σ] {P : Problem σ α ρ} {config : Config ρ} {spaces : List (StateSpace σ)}
  {calls : Nat → List (StateSpace.Call σ α ρ)}

def Follows (P : Problem σ α ρ) (config : Config ρ) (calls : Nat → List (StateSpace.Call σ α ρ))
    (spaces : List (StateSpace σ)) : Prop :=
  ∀ t space, spaces[t]? = some space → ∃ later, Traced P config t (calls t ++ later) space

def thenMaterialize (P : Problem σ α ρ) (calls : Nat → List (StateSpace.Call σ α ρ)) (t : Nat) :
    List (StateSpace.Call σ α ρ) :=
  calls t ++ [.materialize P]

theorem follows_materializeAll (lawful : P.Lawful)
    (traced : ∀ t space, spaces[t]? = some space → Traced P config t (calls t) space) :
    Follows P config (thenMaterialize P calls) (materializeAll P spaces).2 := by
  intro t space found
  rw [materializeAll_eq_map, List.getElem?_map] at found
  obtain ⟨before, placed, rfl⟩ := Option.map_eq_some_iff.1 found
  refine ⟨[], ?_⟩
  rw [List.append_nil]
  exact (traced t before placed).materialize lawful

omit [Hashable σ] in
theorem getElem?_coverAll_succ [Scalar ρ] {t : Nat} {space : StateSpace σ}
    (found : (coverAll P spaces).2[t + 1]? = some space) :
    ∃ before next, (coverAll P spaces).2[t]? = some before ∧ spaces[t + 1]? = some next ∧
      space = (next.extend (uncovered P before next)).2 := by
  cases spaces with
  | nil => cases found
  | cons first rest =>
    change (coverAfter P first rest).2[t]? = some space at found
    have inside : t < rest.length := by
      rw [← length_coverAfter P first rest]
      exact (List.getElem?_eq_some_iff.1 found).1
    obtain ⟨before, placed, covered⟩ : ∃ before, (coverAll P (first :: rest)).2[t]? = some before ∧
        (coverAfter P first rest).2[t]? = some (rest[t].extend (uncovered P before rest[t])).2 :=
      getElem?_coverAfter (List.getElem?_eq_getElem inside)
    rw [found] at covered
    exact ⟨before, rest[t], placed, List.getElem?_eq_getElem inside, Option.some.inj covered⟩

-- A period is extended for what the period before it has in the end, so this goes by periods.
theorem Follows.coverAll [Scalar ρ] (lawful : P.Lawful) (follows : Follows P config calls spaces) :
    Follows P config calls (Backward.coverAll P spaces).2 := by
  intro t
  induction t with
  | zero =>
    intro space found
    cases spaces with
    | nil => cases found
    | cons first rest => exact follows 0 space found
  | succ t ih =>
    intro space found
    obtain ⟨before, next, above, placed, rfl⟩ := getElem?_coverAll_succ found
    obtain ⟨_, ahead⟩ := ih before above
    obtain ⟨later, traced⟩ := follows (t + 1) next placed
    refine ⟨later ++ [.extend (uncovered P before next)], ?_⟩
    rw [← List.append_assoc]
    exact traced.extend fun s member => period_of_mem_uncovered lawful ahead.inPeriod member

end Spaces

section Decided

variable {ω : Type} [DecidableEq α] {P : Problem σ α ρ} {config : Config ρ} {Kind : σ → Prop}

structure DecidesOnly (Kind : σ → Prop) (w w' : Ledger σ α ρ × ω) : Prop where
  kept : ∀ s, w.1.isSolved s = true → w'.1.isSolved s = true
  new : ∀ s, w'.1.isSolved s = true → w.1.isSolved s = true ∨ Kind s

instance decidesOnly_preorder : IsPreorder (Ledger σ α ρ × ω) (DecidesOnly Kind) where
  refl w := ⟨fun _ => id, fun _ => .inl⟩
  trans _ _ _ first second := by
    refine ⟨fun s solved => second.kept s (first.kept s solved), fun s solved => ?_⟩
    rcases second.new s solved with before | kind
    · exact first.new s before
    · exact .inr kind

theorem decidesOnly_of_same {w w' : Ledger σ α ρ × ω}
    (same : ∀ s, w'.1.decision? s = w.1.decision? s) : DecidesOnly Kind w w' := by
  have solved : ∀ s, w'.1.isSolved s = w.1.isSolved s := fun s => congrArg Option.isSome (same s)
  exact ⟨fun s before => (solved s).trans before, fun s after => .inl ((solved s).symm.trans after)⟩

def Decides (Kind : σ → Prop) (m : LedgerM σ α ρ Tally Unit) (states : List σ) : Prop :=
  Fulfils (DecidesOnly Kind) (fun _ => True) m fun _ w => ∀ s ∈ states, w.1.isSolved s = true

theorem decides_decide {s : σ} (kind : Kind s) (d : Decision α ρ) :
    Decides Kind (LedgerM.decide s d) [s] := by
  rintro ⟨l, c⟩ -
  cases stored : l.decision? s with
  | some d' =>
    rw [decide_of_stored d stored]
    exact ⟨refl _, fun _ failed => by cases failed⟩
  | none =>
    rw [decide_of_vacant d stored]
    refine ⟨⟨fun s' => (l.extends_publish s d).isSolved, fun s' solved => ?_⟩,
      fun _ _ s' member => ?_⟩
    · rcases Ledger.isSolved_or_of_publish solved with before | rfl
      · exact .inl before
      · exact .inr kind
    · cases List.mem_singleton.1 member
      exact l.isSolved_publish s d

theorem decides_nothing : Decides Kind (pure () : LedgerM σ α ρ Tally Unit) [] :=
  fulfils_pure fun _ _ => List.forall_mem_nil _

theorem Decides.andThen {m m' : LedgerM σ α ρ Tally Unit} {states others : List σ}
    (first : Decides Kind m states) (second : Decides Kind m' others) :
    Decides Kind (do m; m') (others ++ states) := by
  refine first.bind fun _ => ?_
  have keeping := second.keeping (S := fun w => ∀ s ∈ states, w.1.isSolved s = true)
    fun w w' moved solved s member => moved.kept s (solved s member)
  exact keeping.imp (fun w solved => ⟨trivial, solved⟩) fun _ w => List.forall_mem_append.2

theorem decides_addSolved :
    Decides Kind (onContext Tally.addSolved : LedgerM σ α ρ Tally Unit) [] :=
  fulfils_onContext fun _ _ _ => ⟨decidesOnly_of_same fun _ => rfl, List.forall_mem_nil _⟩

theorem decides_forEach {step : σ → LedgerM σ α ρ Tally Unit} {xs : List σ}
    (each : ∀ s ∈ xs, Decides Kind (step s) [s]) : Decides Kind (forEach step xs) xs := by
  have all := fulfils_forEach (R := DecidesOnly Kind) (J := fun _ => True)
    (Q := fun s (w : Ledger σ α ρ × Tally) => w.1.isSolved s = true)
    (fun s w w' moved => moved.kept s) fun s member =>
      (each s member).imp (fun _ => id) fun _ w solved =>
        ⟨trivial, solved s (List.mem_singleton_self s)⟩
  exact all.imp (fun _ => id) fun _ w solved => solved.2

variable [Scalar ρ] {s : σ}

theorem decidesOnly_evaluate (next : StateSpace σ) (s : σ) (a : α) :
    Fulfils (DecidesOnly Kind) (fun _ => True) (evaluate P config next s a) fun _ _ => True := by
  refine fulfils_expectedValue (I := fun _ _ => True) ?_ ?_ ?_ ?_
  · exact fun _ _ _ => trivial
  · exact fun _ _ _ => trivial
  · exact fun _ f _ => (fulfils_query _).imp (fun _ => id) fun _ w _ =>
      ⟨decidesOnly_of_same fun _ => rfl, trivial⟩
  · exact fun l t x _ => ⟨decidesOnly_of_same fun _ => l.decision?_enterExpected s _ a x, trivial⟩

theorem decides_solveState (next : StateSpace σ) (kind : Kind s) :
    Decides Kind (solveState P config next s) [s] := by
  have evaluated : Fulfils (DecidesOnly Kind) (fun _ => True)
      (LedgerM.evaluateAll (evaluate P config next s) (P.actions s) : LedgerM σ α ρ Tally _)
      fun _ _ => True :=
    fulfils_evaluateAll_of_invariant fun a _ => decidesOnly_evaluate next s a
  refine evaluated.bind fun candidates => ?_
  refine ((fulfils_ofExcept _).imp (fun _ => id) fun _ _ _ => trivial).bind fun d => ?_
  exact (decides_decide kind d).andThen decides_addSolved

theorem decides_solveIdle (next : StateSpace σ) (kind : Kind s) :
    Decides Kind (solveIdle P config next s) [s] :=
  (decidesOnly_evaluate next s (P.idle s)).bind fun _ =>
    (decides_decide kind _).andThen decides_addSolved

variable {spaces : List (StateSpace σ)}

-- All periods of a pass but the last are decided, each from the next.
theorem decides_solveDown (kinds : ∀ s ∈ listed spaces, Kind s) :
    Decides Kind (solveDown P config spaces) (listed spaces.dropLast) := by
  induction spaces with
  | nil => exact decides_nothing
  | cons current rest ih =>
    obtain ⟨here, ahead⟩ := List.forall_mem_append.1 kinds
    cases rest with
    | nil => exact decides_nothing
    | cons next others =>
      exact (ih ahead).andThen
        (decides_forEach fun s member => decides_solveState next (here s member))

theorem decides_pass (kinds : ∀ s ∈ listed spaces, Kind s) (approximate : Bool) :
    Decides Kind (pass P config approximate spaces) (listed spaces.dropLast) := by
  cases approximate with
  | false => exact decides_solveDown kinds
  | true =>
    match spaces with
    | [] => exact decides_nothing
    | [_] => exact decides_nothing
    | current :: next :: others =>
      obtain ⟨here, ahead⟩ := List.forall_mem_append.1 kinds
      exact (decides_solveDown ahead).andThen
        (decides_forEach fun s member => decides_solveIdle next (here s member))

omit [Scalar ρ] in
theorem decides_seedTerminal (kinds : ∀ s ∈ listed spaces, Kind s) :
    Decides Kind (seedTerminal P spaces) (listed spaces.getLast?.toList) := by
  unfold seedTerminal
  cases isLast : spaces.getLast? with
  | none => exact decides_nothing
  | some last =>
    have member := List.mem_of_getLast? isLast
    rw [listed, Option.toList_some, List.flatMap_singleton]
    exact decides_forEach fun s enumerated =>
      decides_decide (kinds s (List.mem_flatMap.2 ⟨last, member, enumerated⟩)) _

end Decided

section History

variable [DecidableEq α] {P : Problem σ α ρ} {config : Config ρ}
  {calls : Nat → List (StateSpace.Call σ α ρ)} {b : Backward σ α ρ}

def serveSpaces (b : Backward σ α ρ) (calls : Nat → List (StateSpace.Call σ α ρ)) :
    Backward σ α ρ :=
  { b with spaces := b.spaces.mapIdx fun t space => (space.serveAll (calls t)).2 }

variable [Hashable σ]

/-- What is true at all times of a recursion whose spaces were called before it began. -/
structure Trails (P : Problem σ α ρ) (config : Config ρ)
    (calls : Nat → List (StateSpace.Call σ α ρ)) (b : Backward σ α ρ) : Prop where
  problem_eq : b.problem = P
  untouched : b.phase = .uninitialized →
    (∀ t space, b.spaces[t]? = some space → Traced P config t (calls t) space) ∧
      ∀ s, b.ledger.isSolved s = false
  begun : b.phase ≠ .uninitialized → Follows P config (thenMaterialize P calls) b.spaces
  decided : ∀ s, b.ledger.isSolved s = true → s ∈ listed b.spaces

theorem Trails.perform (trails : Trails P config calls b) (begun : b.phase ≠ .uninitialized)
    {act : LedgerM σ α ρ Tally Unit} {states : List σ}
    (decides : Decides (· ∈ listed b.spaces) act states) :
    Trails P config calls (b.perform act).2 ∧ (b.perform act).2.phase ≠ .uninitialized := by
  obtain ⟨problem, configuration, spaces, l, t, phase⟩ := b
  obtain ⟨moved, -⟩ := decides (l, t) trivial
  refine ⟨⟨trails.problem_eq, fun early => absurd early begun, fun _ => trails.begun begun,
    fun s solved => ?_⟩, begun⟩
  rcases moved.new s solved with before | member
  · exact trails.decided s before
  · exact member

theorem Trails.withPhase (trails : Trails P config calls b) (begun : b.phase ≠ .uninitialized)
    {phase : Phase} (later : phase ≠ .uninitialized) :
    Trails P config calls { b with phase := phase } :=
  ⟨trails.problem_eq, fun early => absurd early later, fun _ => trails.begun begun, trails.decided⟩

theorem Trails.not_mem_enumerated (trails : Trails P config calls b) {t : Nat} {s : σ}
    (overlooks : (vacantSpace config t).Overlooks (calls t) s) {space : StateSpace σ}
    (found : b.spaces[t]? = some space) : s ∉ space.enumerated := by
  have skipped := fun later => StateSpace.not_mem_enumerated_of_overlooks
    (knows_vacantSpace config t) (calls t) later overlooks
  by_cases fresh : b.phase = .uninitialized
  · have traced := (trails.untouched fresh).1 t space found
    rw [traced.reached, ← List.append_nil (calls t)]
    exact skipped []
  · obtain ⟨later, traced⟩ := trails.begun fresh t space found
    rw [traced.reached, thenMaterialize, List.append_assoc]
    exact skipped _

theorem Trails.period_eq (trails : Trails P config calls b) {t : Nat} {space : StateSpace σ}
    (found : b.spaces[t]? = some space) : ∀ s ∈ space.enumerated, P.period s = t := by
  by_cases fresh : b.phase = .uninitialized
  · exact ((trails.untouched fresh).1 t space found).inPeriod
  · obtain ⟨later, traced⟩ := trails.begun fresh t space found
    exact traced.inPeriod

theorem Trails.exists_space (trails : Trails P config calls b) {s : σ}
    (member : s ∈ listed b.spaces) :
    ∃ space, b.spaces[P.period s]? = some space ∧ s ∈ space.enumerated := by
  obtain ⟨space, inside, enumerated⟩ := List.mem_flatMap.1 member
  obtain ⟨t, found⟩ := List.mem_iff_getElem?.1 inside
  have period := trails.period_eq found s enumerated
  exact ⟨space, period ▸ found, enumerated⟩

theorem Trails.isSolved_eq_false (trails : Trails P config calls b) {s : σ}
    (overlooks : (vacantSpace config (P.period s)).Overlooks (calls (P.period s)) s) :
    b.ledger.isSolved s = false := by
  apply Bool.eq_false_iff.2
  intro solved
  obtain ⟨space, found, enumerated⟩ := trails.exists_space (trails.decided s solved)
  exact trails.not_mem_enumerated overlooks found enumerated

theorem Trails.mem_enumerated_iff (trails : Trails P config calls b)
    (begun : b.phase ≠ .uninitialized) {t : Nat} {space : StateSpace σ}
    (found : b.spaces[t]? = some space) {s : σ} (sampled : s ∈ P.sampleAt config t) :
    s ∈ space.enumerated ↔ ¬(vacantSpace config t).Overlooks (calls t) s := by
  obtain ⟨later, traced⟩ := trails.begun begun t space found
  rw [traced.reached, thenMaterialize, List.append_assoc]
  exact StateSpace.mem_enumerated_materialize (knows_vacantSpace config t) (calls t) later sampled

variable [Scalar ρ] (lawful : P.Lawful)

include lawful

theorem Trails.generateStates (trails : Trails P config calls b) :
    Trails P config calls b.generateStates ∧ b.generateStates.phase ≠ .uninitialized := by
  by_cases fresh : b.phase = .uninitialized
  · obtain ⟨traced, blank⟩ := trails.untouched fresh
    have follows := follows_materializeAll lawful traced
    have undecided : ∀ {s : σ} {spaces : List (StateSpace σ)}, b.ledger.isSolved s = true →
        s ∈ listed spaces := by
      intro s spaces solved
      rw [blank s] at solved
      cases solved
    have begun : Phase.generated ≠ .uninitialized := by decide
    rw [Backward.generateStates, if_pos fresh, trails.problem_eq]
    by_cases exhaustive : b.config.stateSampling.isExhaustive = true
    · simp only [exhaustive, if_true]
      exact ⟨⟨rfl, (absurd · begun), fun _ => follows, fun _ => undecided⟩, begun⟩
    · simp only [exhaustive, Bool.false_eq_true, if_false]
      exact ⟨⟨rfl, (absurd · begun), fun _ => follows.coverAll lawful, fun _ => undecided⟩, begun⟩
  · have same : b.generateStates = b := by rw [Backward.generateStates, if_neg fresh]
    rw [same]
    exact ⟨trails, fresh⟩

theorem Trails.prepare (trails : Trails P config calls b) :
    Trails P config calls b.prepare.2 ∧ b.prepare.2.phase ≠ .uninitialized := by
  unfold Backward.prepare
  split
  · obtain ⟨generated, begun⟩ := trails.generateStates lawful
    exact generated.perform begun (decides_seedTerminal fun _ => id)
  · next begun => exact ⟨trails, begun⟩

theorem Trails.runUntil (trails : Trails P config calls b) (target : Nat) (approximate : Bool) :
    Trails P config calls (b.runUntil target approximate).2 := by
  obtain ⟨readied, begun⟩ := trails.prepare lawful
  unfold Backward.runUntil
  split
  · exact trails
  · rcases prepared : b.prepare with ⟨result, c⟩
    rw [prepared] at readied begun
    cases result with
    | error e => exact readied
    | ok _ =>
      obtain ⟨swept, later⟩ := readied.perform begun
        (decides_pass (fun _ => mem_listed_of_drop) approximate)
      unfold pass at swept later
      dsimp only at swept later ⊢
      generalize c.perform _ = ran at swept later ⊢
      obtain ⟨outcome, d⟩ := ran
      cases outcome with
      | error e => exact swept
      | ok _ => exact swept.withPhase later nofun

theorem Trails.call (trails : Trails P config calls b) (c : Call) :
    Trails P config calls (b.call c) := by
  rcases b.answer_cases c with rfl | same | ⟨target, approximate, -, same⟩
  · exact (trails.generateStates lawful).1
  · rwa [same]
  · rw [Backward.call, same]
    exact trails.runUntil lawful target approximate

theorem Trails.after (trails : Trails P config calls b) (history : List Call) :
    Trails P config calls (b.after history) := by
  induction history generalizing b with
  | nil => exact trails
  | cons c rest ih => exact ih (trails.call lawful c)

omit lawful

omit [Hashable σ] in
-- Everything that was generated has a decision, and the spaces stay as they were generated.
theorem solved_of_fresh_run (fresh : b.phase = .uninitialized) (done : b.run.1 = .ok ()) :
    b.run.2.spaces = b.generateStates.spaces ∧
      ∀ s ∈ listed b.generateStates.spaces, b.run.2.ledger.isSolved s = true := by
  have phase : b.generateStates.phase = .generated := by
    rw [Backward.generateStates, if_pos fresh]
  rcases generated : b.generateStates with ⟨problem, configuration, spaces, l, t, _⟩
  rw [generated] at phase
  cases phase
  have seeds : Decides (fun _ => True) (seedTerminal problem spaces) _ :=
    decides_seedTerminal fun _ _ => trivial
  have solves : Decides (fun _ => True) (solveDown problem configuration spaces) _ :=
    decides_solveDown fun _ _ => trivial
  obtain ⟨-, all⟩ := seeds.andThen solves (l, t) trivial
  rcases seeded : seedTerminal problem spaces (l, t) with ⟨result, l', t'⟩
  have prepared : b.prepare = (result, ⟨problem, configuration, spaces, l', t', .generated⟩) := by
    rw [Backward.prepare, if_pos fresh, generated, perform, seeded]
  cases result with
  | error e =>
    rw [run, Backward.runUntil, fresh, prepared] at done
    cases done
  | ok _ =>
    have ran := runUntil_of_prepare prepared 0 false
    rw [List.drop_zero] at ran
    rw [bind_of_ok seeded] at all
    rw [run, ran] at done ⊢
    refine ⟨rfl, fun s member => all () done s ?_⟩
    rwa [listed_eq] at member

end History

section Served

variable [DecidableEq α] [Hashable σ] [Hashable α] {P : Problem σ α ρ} {config : Config ρ}
  {calls : Nat → List (StateSpace.Call σ α ρ)}

def Fitting (P : Problem σ α ρ) (config : Config ρ)
    (calls : Nat → List (StateSpace.Call σ α ρ)) : Prop :=
  ∀ t, ∀ call ∈ calls t, ∀ s ∈ (vacantSpace config t).offered call, P.period s = t

theorem getElem?_serveSpaces {t : Nat} (inside : t ≤ config.horizon) :
    ((start P config).serveSpaces calls).spaces[t]? =
      some ((vacantSpace config t).serveAll (calls t)).2 := by
  rw [serveSpaces, List.getElem?_mapIdx, start, emptySpaces, List.getElem?_map,
    List.getElem?_range (Nat.lt_succ_of_le inside)]
  rfl

theorem length_serveSpaces :
    ((start P config).serveSpaces calls).spaces.length = config.horizon + 1 := by
  simp [serveSpaces, start, emptySpaces]

theorem trails_serveSpaces (fitting : Fitting P config calls) :
    Trails P config calls ((start P config).serveSpaces calls) := by
  have blank : ∀ s, ((start P config).serveSpaces calls).ledger.isSolved s = false := fun s =>
    congrArg Option.isSome (Ledger.decision?_empty config.storage config.discount s)
  refine ⟨rfl, fun _ => ⟨fun t space found => ?_, blank⟩, fun begun => absurd rfl begun,
    fun s solved => ?_⟩
  · have inside : t < config.horizon + 1 := by
      rw [← length_serveSpaces (P := P)]
      exact (List.getElem?_eq_some_iff.1 found).1
    rw [getElem?_serveSpaces (Nat.le_of_lt_succ inside)] at found
    cases found
    refine ⟨rfl, fun s enumerated => ?_⟩
    rw [StateSpace.mem_enumerated_serveAll (knows_vacantSpace config t)] at enumerated
    obtain ⟨call, first, offered⟩ := enumerated
    exact fitting t call (List.mem_of_find?_eq_some first) s offered
  · rw [blank] at solved
    cases solved

variable [Scalar ρ]

theorem length_generateStates_serveSpaces :
    ((start P config).serveSpaces calls).generateStates.spaces.length = config.horizon + 1 := by
  have fresh : ((start P config).serveSpaces calls).phase = .uninitialized := rfl
  have length : ((start P config).serveSpaces calls).spaces.length = config.horizon + 1 :=
    length_serveSpaces
  rw [generateStates, if_pos fresh]
  dsimp only
  split
  · rw [materializeAll_eq_map, List.length_map, length]
  · rw [length_coverAll, materializeAll_eq_map, List.length_map, length]

omit [DecidableEq α] [Hashable α] [Scalar ρ] in
theorem period_of_mem_sampleAt (lawful : P.Lawful) {t : Nat} {s : σ}
    (sampled : s ∈ P.sampleAt config t) : P.period s = t :=
  lawful.period_domain t s (StateSpace.mem_domain_of_mem_sampledDomain sampled)

end Served

end Backward

open Backward

/-- Materializing a domain enumerates a state of its sample exactly if the state was not looked up
before anything else mentioned it, and no later call changes that. So when the spaces of a recursion
are called before it generates its states, what was looked up in this way is never enumerated and
never decided, and a run that succeeds has decided the other states of the samples and not these. -/
theorem overlooked_states_are_skipped [DecidableEq α] [Hashable σ] [Hashable α] [Scalar ρ] :
    (∀ (period : Nat) (storage : StorageConfig) (sampling : Sampling) (seed : UInt64)
      (calls later : List (StateSpace.Call σ α ρ)) (P : Problem σ α ρ),
      let start : StateSpace σ := .empty period storage sampling seed
      ∀ s ∈ start.sampledDomain P,
        s ∈ (start.serveAll (calls ++ .materialize P :: later)).2.enumerated ↔
          ¬start.Overlooks calls s) ∧
      ∀ (P : Problem σ α ρ) (config : Config ρ) (b : Backward σ α ρ)
        (calls : Nat → List (StateSpace.Call σ α ρ)),
        P.Lawful → Backward.new P config = .ok b → Fitting P config calls →
        let served := b.serveSpaces calls
        ∀ t ≤ config.horizon, ∀ s ∈ P.sampleAt config t,
          ((vacantSpace config t).Overlooks (calls t) s → ∀ history : List Backward.Call,
            s ∉ statesOf (served.after history).spaces t ∧
              (served.after history).ledger.isSolved s = false) ∧
          (served.run.1 = .ok () → (served.run.2.ledger.isSolved s = true ↔
            ¬(vacantSpace config t).Overlooks (calls t) s)) := by
  constructor
  · intro period storage sampling seed calls later P start s sampled
    have vacant : StateSpace.Knows start [] start :=
      StateSpace.knows_empty period storage sampling seed
    exact StateSpace.mem_enumerated_materialize vacant calls later sampled
  · intro P config b calls lawful new fitting
    obtain ⟨-, -, rfl⟩ := Backward.new_eq_ok_iff.1 new
    intro served t inside s sampled
    have began : Trails P config calls served := trails_serveSpaces fitting
    obtain rfl := period_of_mem_sampleAt lawful sampled
    have skipped : (vacantSpace config (P.period s)).Overlooks (calls (P.period s)) s →
        ∀ history, (served.after history).ledger.isSolved s = false := fun overlooks history =>
      (began.after lawful history).isSolved_eq_false overlooks
    refine ⟨fun overlooks history => ⟨?_, skipped overlooks history⟩, fun done => ⟨?_, ?_⟩⟩
    · unfold statesOf
      split
      · next space found =>
        exact (began.after lawful history).not_mem_enumerated overlooks found
      · exact List.not_mem_nil
    · intro solved overlooks
      have undecided : served.run.2.ledger.isSolved s = false := skipped overlooks [.run]
      rw [undecided] at solved
      cases solved
    · intro heeded
      obtain ⟨trails, begun⟩ := began.generateStates lawful
      obtain ⟨-, all⟩ := solved_of_fresh_run rfl done
      have placed : P.period s < served.generateStates.spaces.length := by
        rw [length_generateStates_serveSpaces]
        exact Nat.lt_succ_of_le inside
      have found := List.getElem?_eq_getElem placed
      have enumerated := (trails.mem_enumerated_iff begun found sampled).2 heeded
      exact all s (List.mem_flatMap.2 ⟨_, List.getElem_mem placed, enumerated⟩)

-- The first state of `Explicit.uneven` is looked up, and never decided; those after it are.
theorem overlooked_states_are_skipped_uneven :
    let P : Problem Node Int Float := Explicit.uneven.problem
    let config : Config Float := .exact 2
    let calls : Nat → List (StateSpace.Call Node Int Float) := fun _ => [.getState ⟨0, 0⟩]
    let served := (start P config).serveSpaces calls
    Fitting P config calls ∧ (∀ history, (served.after history).ledger.isSolved ⟨0, 0⟩ = false) ∧
      served.run.1 = .ok () ∧ served.run.2.ledger.isSolved ⟨1, 1⟩ = true := by
  intro P config calls
  dsimp only
  have new : Backward.new P config = .ok (start P config) := Backward.new_uneven
  have fitting : Fitting P config calls := by
    intro t call member s offered
    cases List.mem_singleton.1 member
    cases offered
  have overlooks : (vacantSpace config 0).Overlooks (calls 0) ⟨0, 0⟩ :=
    ⟨.getState ⟨0, 0⟩, rfl, .inl rfl⟩
  have heeded : ¬(vacantSpace config 1).Overlooks (calls 1) ⟨1, 1⟩ := by
    rintro ⟨call, first, -⟩
    have unmentioned : (vacantSpace config 1).firstMention? (calls 1) ⟨1, 1⟩ = none := rfl
    rw [unmentioned] at first
    cases first
  have done : ((start P config).serveSpaces calls).run.1 = .ok () := by decide +kernel
  obtain ⟨-, skipped⟩ := overlooked_states_are_skipped (σ := Node) (α := Int) (ρ := Float)
  have each := skipped P config _ calls Explicit.uneven.lawful new fitting
  have first : ⟨0, 0⟩ ∈ P.sampleAt config 0 := by decide +kernel
  have second : ⟨1, 1⟩ ∈ P.sampleAt config 1 := by decide +kernel
  obtain ⟨undecided, -⟩ := each 0 (Nat.zero_le 2) ⟨0, 0⟩ first
  obtain ⟨-, decided⟩ := each 1 (Nat.le_succ 1) ⟨1, 1⟩ second
  exact ⟨fitting, fun history => (undecided overlooks history).2, done, (decided done).2 heeded⟩

-- A state of the domain that is looked up first: its period does not enumerate it, and a run
-- succeeds without deciding it. One that others lead to makes the run fail.
theorem looked_up_state_is_skipped :
    let P : Problem Node Int Float := Explicit.uneven.problem
    let start : StateSpace Node := .empty 0 .default .exhaustive 0
    let lookUp (s : Node) : StateSpace.Call Node Int Float := .getState s
    let served (s : Node) := (Backward.start P (.exact 2)).serveSpaces fun _ => [lookUp s]
    ⟨0, 0⟩ ∈ start.sampledDomain P ∧
      ⟨0, 0⟩ ∉ (start.serveAll [lookUp ⟨0, 0⟩, .materialize P]).2.enumerated ∧
      (served ⟨0, 0⟩).run.1 = .ok () ∧
      (served ⟨0, 0⟩).run.2.ledger.isSolved ⟨0, 0⟩ = false ∧
      (served ⟨1, 0⟩).run.1 = .error (.unsolved ⟨1, 0⟩) := by
  decide +kernel

end Horizon
