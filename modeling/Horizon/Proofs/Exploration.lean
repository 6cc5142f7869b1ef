import Horizon.Proofs.Agreement
import Horizon.Proofs.Moves

/-! Forward recursion explores what is reachable, and nothing else.

Whatever was known or decided before, and whether or not calls fail, every known state is reachable
from an initial one, and the outcomes of a decided state are decided (`Explored`). So a look-up that
cuts a descent short loses nothing: all that is reachable from a decided state is decided already.
A call that succeeds leaves its initial state decided.
-/

set_option autoImplicit false

namespace Horizon.Forward

open LedgerM Relation

variable {σ α ρ : Type} [DecidableEq σ] [DecidableEq α] {P : Problem σ α ρ} {config : Config ρ}
  {Initial : σ → Prop}

def Reachable (P : Problem σ α ρ) (config : Config ρ) (Initial : σ → Prop) (s : σ) : Prop :=
  ∃ initial, Initial initial ∧ ReflTransGen (Leads P config) initial s

/-- What is known is reachable, and what is decided has been explored. -/
structure Explored (P : Problem σ α ρ) (config : Config ρ) (Initial : σ → Prop)
    (w : Ledger σ α ρ × Frontier σ) : Prop where
  placed : ∀ t s, w.2.contains t s = true → P.period s = t
  reachable : ∀ s, Knows P w.2 s → Reachable P config Initial s
  known : ∀ s, w.1.isSolved s = true → Knows P w.2 s
  acted : ∀ s d, w.1.decision? s = some d → (d.action.isSome ↔ P.period s < config.horizon)
  evaluated : ∀ s, w.1.isSolved s = true → P.period s < config.horizon →
    ∀ a ∈ P.actions s, (w.1.expected? s a).isSome = true
  owned : ∀ s a, (w.1.expected? s a).isSome = true →
    P.period s < config.horizon ∧ a ∈ P.actions s ∧ Knows P w.2 s
  backed : ∀ s a, (w.1.expected? s a).isSome = true →
    ∀ f ∈ kept P config s a, w.1.isSolved f = true

theorem contains_start [Hashable σ] [Hashable α] (t : Nat) (s : σ) :
    (start P config).frontier.contains t s = false := by
  rw [start, Frontier.contains, List.getElem?_toArray, emptySpaces, List.getElem?_map]
  cases (List.range (config.horizon + 1))[t]? with
  | none => rfl
  | some t => simp [StateSpace.contains, StateSpace.empty, Store.contains]

theorem explored_start [Hashable σ] [Hashable α] :
    Explored P config Initial ((start P config).ledger, (start P config).frontier) := by
  have unknown : ∀ t s, ¬(start P config).frontier.contains t s = true := by
    intro t s
    rw [contains_start]
    exact Bool.false_ne_true
  have unsolved : ∀ s d, ¬(start P config).ledger.decision? s = some d := by
    intro s d
    rw [start, Ledger.decision?_empty]
    exact (Option.some_ne_none d).symm
  have undecided : ∀ s, ¬(start P config).ledger.isSolved s = true := by
    intro s solved
    obtain ⟨d, stored⟩ := Ledger.isSolved_iff.1 solved
    exact unsolved s d stored
  have absent : ∀ s a, ¬((start P config).ledger.expected? s a).isSome = true := by
    intro s a
    rw [start, Ledger.expected?_empty]
    exact Bool.false_ne_true
  refine ⟨fun t s known => absurd known (unknown t s), fun s known => absurd known (unknown _ s),
    fun s solved => absurd solved (undecided s), fun s d stored => absurd stored (unsolved s d),
    fun s solved => absurd solved (undecided s), fun s a entered => absurd entered (absent s a),
    fun s a entered => absurd entered (absent s a)⟩

-- A decision that is entered for a known state leaves only that state to be looked at.
theorem Explored.publish {l : Ledger σ α ρ} {f g : Frontier σ} {s : σ} {d : Decision α ρ}
    (explored : Explored P config Initial (l, f)) (same : g.contains = f.contains)
    (known : Knows P f s)
    (acted : d.action.isSome ↔ P.period s < config.horizon)
    (evaluated : P.period s < config.horizon →
      ∀ b ∈ P.actions s, (l.expected? s b).isSome = true) :
    Explored P config Initial ((l.publish s d).2, g) := by
  have entries := l.extends_publish s d
  constructor
  · dsimp only
    rw [same]
    exact explored.placed
  · dsimp only [Knows]
    rw [same]
    exact explored.reachable
  · intro s' solved
    dsimp only [Knows]
    rw [same]
    rcases Ledger.isSolved_or_of_publish solved with old | rfl
    · exact explored.known s' old
    · exact known
  · intro s' d' stored
    rcases Ledger.decision?_or_of_publish stored with old | ⟨rfl, rfl⟩
    · exact explored.acted s' d' old
    · exact acted
  · intro s' solved below a feasible
    refine entries.isSome_expected ?_
    rcases Ledger.isSolved_or_of_publish solved with old | rfl
    · exact explored.evaluated s' old below a feasible
    · exact evaluated below a feasible
  · intro s' a entered
    dsimp only at entered
    rw [Ledger.expected?_publish] at entered
    dsimp only [Knows]
    rw [same]
    exact explored.owned s' a entered
  · intro s' a entered o outcome
    dsimp only at entered
    rw [Ledger.expected?_publish] at entered
    exact entries.isSolved (explored.backed s' a entered o outcome)

theorem Explored.enter {l : Ledger σ α ρ} {f : Frontier σ} {s : σ}
    (explored : Explored P config Initial (l, f)) (asked : Asked P config Initial f s) :
    Explored P config Initial (l, f.enter (P.period s) s) := by
  have reachable : Reachable P config Initial s := by
    rcases asked with initial | ⟨s', known, leads⟩
    · exact ⟨s, initial, .refl⟩
    · obtain ⟨first, initial, reaches⟩ := explored.reachable s' known
      exact ⟨first, initial, reaches.tail leads⟩
  have grows : ∀ s', Knows P f s' → Knows P (f.enter (P.period s) s) s' :=
    fun s' known => (f.contains_enter _ s _ s').2 (.inl known)
  refine ⟨fun t s' known => ?_, fun s' known => ?_, fun s' solved => ?_, explored.acted,
    explored.evaluated, fun s' a entered => ?_, explored.backed⟩
  · rcases (f.contains_enter _ s t s').1 known with old | ⟨rfl, rfl, -⟩
    · exact explored.placed t s' old
    · rfl
  · rcases (f.contains_enter _ s _ s').1 known with old | ⟨-, rfl, -⟩
    · exact explored.reachable s' old
    · exact reachable
  · exact grows s' (explored.known s' solved)
  · obtain ⟨below, feasible, known⟩ := explored.owned s' a entered
    exact ⟨below, feasible, grows s' known⟩

theorem Explored.enterExpected {l : Ledger σ α ρ} {f : Frontier σ} {s : σ} {a : α} (x : ρ)
    (explored : Explored P config Initial (l, f)) (below : P.period s < config.horizon)
    (feasible : a ∈ P.actions s) (known : Knows P f s)
    (solved : ∀ o ∈ kept P config s a, l.isSolved o = true) :
    Explored P config Initial ((l.enterExpected s a x).2, f) := by
  have same : ∀ s', (l.enterExpected s a x).2.isSolved s' = l.isSolved s' := fun s' =>
    congrArg Option.isSome (l.decision?_enterExpected s s' a x)
  refine ⟨explored.placed, explored.reachable, fun s' held => ?_, fun s' d stored => ?_,
    fun s' held below b feasible => ?_, fun s' b entered => ?_, fun s' b entered o outcome => ?_⟩
  · exact explored.known s' ((same s').symm.trans held)
  · exact explored.acted s' d ((l.decision?_enterExpected s s' a x).symm.trans stored)
  · have before := explored.evaluated s' ((same s').symm.trans held) below b feasible
    exact (l.extends_enterExpected s a x).isSome_expected before
  · rcases Ledger.isSome_or_of_enterExpected entered with old | pair
    · exact explored.owned s' b old
    · cases pair
      exact ⟨below, feasible, known⟩
  · refine (same o).trans ?_
    rcases Ledger.isSome_or_of_enterExpected entered with old | pair
    · exact explored.backed s' b old o outcome
    · cases pair
      exact solved o outcome

theorem Explored.move {w w' : Ledger σ α ρ × Frontier σ}
    (explored : Explored P config Initial w) (move : Move P config Initial w w') :
    Explored P config Initial w' := by
  cases move with
  | enter asked _ _ => exact explored.enter asked
  | reuse _ | collect _ _ _ =>
    exact ⟨explored.placed, explored.reachable, explored.known, explored.acted,
      explored.evaluated, explored.owned, explored.backed⟩
  | evaluate x below feasible known solved =>
    exact explored.enterExpected x below feasible known solved
  | decide x a below known _ evaluated =>
    refine explored.publish rfl known ?_ fun _ => evaluated
    exact ⟨fun _ => below, fun _ => rfl⟩
  | finish x last known _ =>
    refine explored.publish rfl known ?_ fun below => absurd last (Nat.ne_of_lt below)
    exact ⟨nofun, fun below => absurd last (Nat.ne_of_lt below)⟩

theorem Explored.moves {w w' : Ledger σ α ρ × Frontier σ}
    (explored : Explored P config Initial w) (moves : Moves P config Initial w w') :
    Explored P config Initial w' := by
  induction moves with
  | refl => exact explored
  | tail _ move ih => exact ih.move move

theorem Explored.solved_of_reaches {w : Ledger σ α ρ × Frontier σ}
    (explored : Explored P config Initial w) {s f : σ} (solved : w.1.isSolved s = true)
    (reaches : ReflTransGen (Leads P config) s f) : w.1.isSolved f = true := by
  induction reaches with
  | refl => exact solved
  | tail _ leads ih =>
    obtain ⟨below, a, feasible, outcome⟩ := leads
    exact explored.backed _ a (explored.evaluated _ ih below a feasible) _ outcome

section Calls

variable [Scalar ρ]

-- What succeeded once is decided, and stays so.
theorem isSolved_of_runAll (lawful : P.Lawful) {r : Forward σ α ρ} (fitted : Fitted P config r)
    {initials : List σ} (done : ∀ result ∈ (r.runAll initials).1, ∃ x, result = .ok x) :
    ∀ s ∈ initials, (r.runAll initials).2.ledger.isSolved s = true := by
  induction initials generalizing r with
  | nil => exact fun s listed => absurd listed List.not_mem_nil
  | cons first rest ih =>
    have next : Fitted P config (r.run first).2 := (fitted.run (fun _ => True) lawful trivial).1
    obtain ⟨-, moves⟩ := next.runAll (· ∈ rest) lawful fun _ listed => listed
    obtain ⟨x, given⟩ := done _ List.mem_cons_self
    have solved : (r.run first).2.ledger.isSolved first = true := isSome_of_run given
    intro s listed
    rcases List.mem_cons.1 listed with rfl | listed
    · exact (grown_of_moves moves).entries.isSolved solved
    · exact ih next (fun result later => done result (List.mem_cons_of_mem _ later)) s listed

/-- Calls on a new recursion make known what is reachable from their initial states, and nothing
else. If all of them succeed, every reachable state is known and decided, with an action exactly
below the horizon, and no other state is. Whether or not they do, the known states are among the
reachable ones, and whatever can be reached from a decided state is decided. -/
theorem explores_reachable_states [Hashable σ] [Hashable α] (lawful : P.Lawful)
    {fresh : Forward σ α ρ} (new : Forward.new P config = .ok fresh) (initials : List σ) :
    let after := (fresh.runAll initials).2
    let Known (s : σ) := ∃ space ∈ after.frontier.spaces, s ∈ space.states
    ((∀ result ∈ (fresh.runAll initials).1, ∃ x, result = .ok x) →
      ∀ s, (Known s ↔ Reachable P config (· ∈ initials) s) ∧
        (after.ledger.isSolved s = true ↔ Reachable P config (· ∈ initials) s) ∧
        ∀ d, after.ledger.decision? s = some d → (d.action.isSome ↔ P.period s < config.horizon)) ∧
      (∀ s, Known s → Reachable P config (· ∈ initials) s) ∧
      ∀ s f, after.ledger.isSolved s = true → ReflTransGen (Leads P config) s f →
        after.ledger.isSolved f = true := by
  intro after Known
  obtain ⟨-, -, rfl⟩ := new_eq_ok_iff.1 new
  obtain ⟨-, moves⟩ := fitted_start.runAll (· ∈ initials) lawful fun _ listed => listed
  have explored := explored_start.moves moves
  have known : ∀ s, Known s ↔ Knows P after.frontier s := by
    intro s
    refine Frontier.exists_mem_states.trans ⟨?_, fun here => ⟨_, here⟩⟩
    rintro ⟨t, here⟩
    rwa [Knows, explored.placed t s here]
  have reachable : ∀ s, Known s → Reachable P config (· ∈ initials) s :=
    fun s here => explored.reachable s ((known s).1 here)
  refine ⟨fun done s => ?_, reachable, fun s f => explored.solved_of_reaches⟩
  have decided : Reachable P config (· ∈ initials) s → after.ledger.isSolved s = true := by
    rintro ⟨initial, listed, reaches⟩
    have first := isSolved_of_runAll lawful fitted_start done initial listed
    exact explored.solved_of_reaches first reaches
  have met : after.ledger.isSolved s = true → Known s := fun solved =>
    (known s).2 (explored.known s solved)
  exact ⟨⟨reachable s, fun here => met (decided here)⟩,
    ⟨fun solved => reachable s (met solved), decided⟩, explored.acted s⟩

-- Two calls on `Explicit.uneven` that succeed, the second for a state that the first one reached.
theorem explores_reachable_states_uneven :
    let P : Problem Node Int Float := Explicit.uneven.problem
    let initials : List Node := [⟨0, 0⟩, ⟨1, 1⟩]
    let ran := (start P (.exact 2)).runAll initials
    Forward.new P (.exact 2) = .ok (start P (.exact 2)) ∧
      (∀ result ∈ ran.1, ∃ x, result = .ok x) ∧
      Reachable P (.exact 2) (· ∈ initials) ⟨2, 1⟩ ∧
      ∃ d, ran.2.ledger.decision? ⟨2, 1⟩ = some d ∧ ¬d.action.isSome = true := by
  intro P initials ran
  have all : ran.1.all (fun result => result.toOption.isSome) = true := by decide +kernel
  have done : ∀ result ∈ ran.1, ∃ x, result = .ok x := exists_ok_of_all all
  have new : Forward.new P (.exact 2) = .ok (start P (.exact 2)) := new_uneven
  obtain ⟨exactly, -⟩ := explores_reachable_states (P := P) Explicit.uneven.lawful new initials
  obtain ⟨-, decided, acted⟩ := exactly done ⟨2, 1⟩
  have solved : ran.2.ledger.isSolved ⟨2, 1⟩ = true := by decide +kernel
  obtain ⟨d, stored⟩ := Ledger.isSolved_iff.1 solved
  refine ⟨new, done, decided.1 solved, d, stored, fun hasAction => ?_⟩
  exact absurd ((acted d stored).1 hasAction) (by decide)

end Calls

end Horizon.Forward
