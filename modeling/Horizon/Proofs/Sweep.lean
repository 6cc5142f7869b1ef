import Horizon.Proofs.Bellman
import Horizon.Proofs.Enumeration

/-! The passes of a backward recursion, without a ledger.

`attemptDown` decides the states that are enumerated, period by period from the horizon down, up to
the first that cannot be decided. The outcomes that count are enumerated for the next period
(`Complete.mem_statesOf_of_mem_kept`), so they are decided before they are asked for, and all
periods can be decided exactly when each state can be (`attemptDown_eq_ok_iff`).
-/

set_option autoImplicit false

namespace Horizon.Backward

variable {σ α ρ : Type} [DecidableEq σ]

/-- The outcomes that count: those known in the next period, or a sample of them. -/
def kept (P : Problem σ α ρ) (config : Config ρ) (spaces : List (StateSpace σ)) (s : σ) (a : α) :
    List σ :=
  match spaces[P.period s + 1]? with
  | some next =>
    P.keepOutcomes config.outcomeSampling config.seed s a ((P.outcomes s a).filter next.contains)
  | none => []

theorem mem_outcomes_of_mem_kept {P : Problem σ α ρ} {config : Config ρ}
    {spaces : List (StateSpace σ)} {s f : σ} {a : α} (member : f ∈ kept P config spaces s a) :
    f ∈ P.outcomes s a ∧ ∃ next, spaces[P.period s + 1]? = some next ∧ next.contains f = true := by
  unfold kept at member
  split at member
  · next next found =>
    have existing := List.mem_filter.1 (Problem.mem_of_mem_keepOutcomes member)
    exact ⟨existing.1, next, found, existing.2⟩
  · exact absurd member List.not_mem_nil

-- An action is evaluated from the outcomes that count.
theorem evaluate_of_next [DecidableEq α] [Scalar ρ] {P : Problem σ α ρ} {config : Config ρ}
    {spaces : List (StateSpace σ)} {next : StateSpace σ} {s : σ}
    (found : spaces[P.period s + 1]? = some next) (a : α) :
    evaluate P config next s a =
      LedgerM.expectedValue P (pure (kept P config spaces s a)) LedgerM.valueOf s a := by
  rw [evaluate, kept, found]

def statesOf (spaces : List (StateSpace σ)) (t : Nat) : List σ :=
  match spaces[t]? with
  | some space => space.enumerated
  | none => []

structure Complete (P : Problem σ α ρ) (config : Config ρ) (spaces : List (StateSpace σ)) :
    Prop where
  laid : Laid P 0 spaces
  length_eq : spaces.length = config.horizon + 1

section Complete

variable {P : Problem σ α ρ} {config : Config ρ} {spaces : List (StateSpace σ)} {t : Nat}

theorem Complete.exists_space (complete : Complete P config spaces) (inside : t ≤ config.horizon) :
    ∃ space, spaces[t]? = some space ∧ StateSpace.Orderly P t space ∧
      statesOf spaces t = space.enumerated ∧ spaces.drop t = space :: spaces.drop (t + 1) := by
  have bound : t < spaces.length := by
    rw [complete.length_eq]
    omega
  have found : spaces[t]? = some spaces[t] := List.getElem?_eq_getElem bound
  have orderly := complete.laid.orderly found
  rw [Nat.zero_add] at orderly
  refine ⟨spaces[t], found, orderly, ?_, List.drop_eq_getElem_cons bound⟩
  rw [statesOf, found]

-- Two neighbouring periods, for which a pass is one step longer.
theorem Complete.exists_pair {left : Nat} (complete : Complete P config spaces)
    (inside : left + 1 ≤ config.horizon) :
    ∃ current next rest, spaces[config.horizon - (left + 1)]? = some current ∧
      (∀ s ∈ current.enumerated, spaces[P.period s + 1]? = some next) ∧
      spaces.drop (config.horizon - (left + 1)) = current :: next :: rest ∧
      spaces.drop (config.horizon - left) = next :: rest := by
  obtain ⟨current, found, orderly, -, dropped⟩ :=
    complete.exists_space (t := config.horizon - (left + 1)) (by omega)
  obtain ⟨next, foundNext, -, -, droppedNext⟩ :=
    complete.exists_space (t := config.horizon - left) (by omega)
  rw [show config.horizon - (left + 1) + 1 = config.horizon - left by omega, droppedNext] at dropped
  refine ⟨current, next, _, found, fun s member => ?_, dropped, droppedNext⟩
  rwa [orderly.inPeriod s member,
    show config.horizon - (left + 1) + 1 = config.horizon - left by omega]

theorem Complete.exists_last (complete : Complete P config spaces) :
    ∃ last, spaces.getLast? = some last ∧ StateSpace.Orderly P config.horizon last ∧
      statesOf spaces config.horizon = last.enumerated := by
  obtain ⟨last, found, orderly, states, -⟩ := complete.exists_space (Nat.le_refl config.horizon)
  refine ⟨last, ?_, orderly, states⟩
  rw [List.getLast?_eq_getElem?, complete.length_eq]
  exact found

theorem Complete.drop_horizon (complete : Complete P config spaces) :
    ∃ last, spaces.drop config.horizon = [last] := by
  obtain ⟨last, -, -, -, dropped⟩ := complete.exists_space (Nat.le_refl config.horizon)
  refine ⟨last, ?_⟩
  rw [dropped, ← complete.length_eq, List.drop_length]

theorem Complete.period_of_mem (complete : Complete P config spaces) {s : σ}
    (member : s ∈ statesOf spaces t) : P.period s = t ∧ t ≤ config.horizon := by
  unfold statesOf at member
  split at member
  · next space found =>
    obtain ⟨bound, -⟩ := List.getElem?_eq_some_iff.1 found
    have orderly := complete.laid.orderly found
    rw [Nat.zero_add] at orderly
    have length := complete.length_eq
    exact ⟨orderly.inPeriod s member, by omega⟩
  · exact absurd member List.not_mem_nil

theorem Complete.mem_statesOf_of_mem_kept (complete : Complete P config spaces) {s f : σ} {a : α}
    (member : f ∈ kept P config spaces s a) : f ∈ statesOf spaces (P.period s + 1) := by
  obtain ⟨-, next, found, known⟩ := mem_outcomes_of_mem_kept member
  rw [statesOf, found]
  exact ((complete.laid.orderly found).known f).1 known

theorem complete_generatedSpaces [Hashable σ] [Scalar ρ] (lawful : P.Lawful) (config : Config ρ) :
    Complete P config (generatedSpaces P config) :=
  ⟨laid_generatedSpaces lawful config, length_generatedSpaces P config⟩

end Complete

section Attempts

variable [Scalar ρ]

/-- Decide the periods below the horizon with at most `left` periods left, from the horizon down,
without a ledger: the first error on the way, if there is one. -/
def attemptDown (P : Problem σ α ρ) (config : Config ρ) (spaces : List (StateSpace σ)) :
    Nat → Except (SolveError σ α) Unit
  | 0 => .ok ()
  | left + 1 => do
    attemptDown P config spaces left
    let _ ← (statesOf spaces (config.horizon - (left + 1))).mapM
      (P.attempt config (kept P config spaces) (left + 1))

variable {P : Problem σ α ρ} {config : Config ρ} {spaces : List (StateSpace σ)} {left : Nat}

theorem attemptDown_succ_eq_ok_iff :
    attemptDown P config spaces (left + 1) = .ok () ↔ attemptDown P config spaces left = .ok () ∧
      ∃ ds, (statesOf spaces (config.horizon - (left + 1))).mapM
        (P.attempt config (kept P config spaces) (left + 1)) = .ok ds := by
  rw [attemptDown]
  cases attemptDown P config spaces left with
  | error e => exact ⟨nofun, nofun⟩
  | ok _ =>
    cases decided : (statesOf spaces (config.horizon - (left + 1))).mapM
        (P.attempt config (kept P config spaces) (left + 1)) with
    | error e => exact ⟨nofun, nofun⟩
    | ok ds => exact ⟨fun _ => ⟨rfl, ds, rfl⟩, fun _ => rfl⟩

theorem attemptDown_of_le {fewer : Nat} (le : fewer ≤ left)
    (swept : attemptDown P config spaces left = .ok ()) :
    attemptDown P config spaces fewer = .ok () := by
  induction le with
  | refl => exact swept
  | step _ ih => exact ih (attemptDown_succ_eq_ok_iff.1 swept).1

theorem attemptDown_of_attempts
    (each : ∀ n < left, ∀ s ∈ statesOf spaces (config.horizon - (n + 1)),
      ∃ d, P.attempt config (kept P config spaces) (n + 1) s = .ok d) :
    attemptDown P config spaces left = .ok () := by
  induction left with
  | zero => rfl
  | succ left ih =>
    have later := ih fun n before => each n (Nat.lt_succ_of_lt before)
    exact attemptDown_succ_eq_ok_iff.2
      ⟨later, exists_mapM_of_exists (each left (Nat.lt_succ_self left))⟩

theorem exists_decisions_of_attemptDown (swept : attemptDown P config spaces left = .ok ()) :
    ∃ ds, (statesOf spaces (config.horizon - left)).mapM
      (P.attempt config (kept P config spaces) left) = .ok ds := by
  cases left with
  | zero => exact ⟨_, mapM_eq_ok_of_forall fun s _ => rfl⟩
  | succ left => exact (attemptDown_succ_eq_ok_iff.1 swept).2

section Decisions

def fill (D : σ → Option (Decision α ρ)) (result : σ → Except (SolveError σ α) (Decision α ρ))
    (xs : List σ) : σ → Option (Decision α ρ) :=
  fun s => if s ∈ xs then (result s).toOption else D s

def decisionsOf (P : Problem σ α ρ) (config : Config ρ) (spaces : List (StateSpace σ))
    (left : Nat) : σ → Option (Decision α ρ) :=
  fun s =>
    if s ∈ statesOf spaces (P.period s) ∧ config.horizon ≤ P.period s + left then
      (P.attempt config (kept P config spaces) (config.horizon - P.period s) s).toOption
    else none

def Ready (P : Problem σ α ρ) (config : Config ρ) (outcomes : σ → α → List σ)
    (next : StateSpace σ) (left : Nat) (D : σ → Option (Decision α ρ)) : Prop :=
  ∀ f, next.contains f = true → ∃ d, D f = some d ∧ P.attempt config outcomes left f = .ok d

theorem fill_decisionsOf (complete : Complete P config spaces)
    (inside : left + 1 ≤ config.horizon) :
    fill (decisionsOf P config spaces left) (P.attempt config (kept P config spaces) (left + 1))
        (statesOf spaces (config.horizon - (left + 1))) =
      decisionsOf P config spaces (left + 1) := by
  funext s
  unfold fill
  by_cases member : s ∈ statesOf spaces (config.horizon - (left + 1))
  · have period := (complete.period_of_mem member).1
    have condition : s ∈ statesOf spaces (P.period s) ∧ config.horizon ≤ P.period s + (left + 1) :=
      ⟨by rwa [period], by omega⟩
    have periods : config.horizon - P.period s = left + 1 := by omega
    rw [if_pos member, decisionsOf, if_pos condition, periods]
  · rw [if_neg member]
    have same : (s ∈ statesOf spaces (P.period s) ∧ config.horizon ≤ P.period s + left) ↔
        s ∈ statesOf spaces (P.period s) ∧ config.horizon ≤ P.period s + (left + 1) := by
      refine ⟨fun both => ⟨both.1, by omega⟩, fun both => ⟨both.1, ?_⟩⟩
      -- the periods that `left + 1` adds are those of the states that are not there
      have other : P.period s ≠ config.horizon - (left + 1) := by
        intro period
        rw [← period] at member
        exact member both.1
      omega
    simp only [decisionsOf, same]

theorem ready_decisionsOf (complete : Complete P config spaces)
    (inside : left ≤ config.horizon) {next : StateSpace σ}
    (found : spaces[config.horizon - left]? = some next) {ds : List (Decision α ρ)}
    (decided : (statesOf spaces (config.horizon - left)).mapM
      (P.attempt config (kept P config spaces) left) = .ok ds) :
    Ready P config (kept P config spaces) next left (decisionsOf P config spaces left) := by
  intro f known
  have states : statesOf spaces (config.horizon - left) = next.enumerated := by
    rw [statesOf, found]
  have orderly := complete.laid.orderly found
  have member : f ∈ statesOf spaces (config.horizon - left) := by
    rw [states]
    exact (orderly.known f).1 known
  have period := (complete.period_of_mem member).1
  obtain ⟨d, right⟩ := exists_ok_of_mapM decided f member
  have condition : f ∈ statesOf spaces (P.period f) ∧ config.horizon ≤ P.period f + left :=
    ⟨by rwa [period], by omega⟩
  have periods : config.horizon - P.period f = left := by omega
  refine ⟨d, ?_, right⟩
  rw [decisionsOf, if_pos condition, periods, right]
  rfl

end Decisions

variable [Scalar.Ranked ρ]

theorem attempt_of_attemptDown (complete : Complete P config spaces)
    (inside : left ≤ config.horizon) (swept : attemptDown P config spaces left = .ok ()) {s : σ}
    (member : s ∈ statesOf spaces (config.horizon - left)) :
    P.attempt config (kept P config spaces) left s =
      .ok (P.optimal config (kept P config spaces) left s) := by
  induction left generalizing s with
  | zero => rfl
  | succ left ih =>
    -- the outcomes belong to the period that was decided just before
    obtain ⟨later, ds, decided⟩ := attemptDown_succ_eq_ok_iff.1 swept
    obtain ⟨d, right⟩ := exists_ok_of_mapM decided s member
    have outcomes : ∀ a ∈ P.actions s, ∀ f ∈ kept P config spaces s a,
        P.attempt config (kept P config spaces) left f =
          .ok (P.optimal config (kept P config spaces) left f) := by
      intro a _ f outcome
      refine ih (by omega) later ?_
      have next := complete.mem_statesOf_of_mem_kept outcome
      have period := (complete.period_of_mem member).1
      rwa [show P.period s + 1 = config.horizon - left by omega] at next
    obtain ⟨-, rfl⟩ := (Problem.attempt_succ_eq_ok_iff outcomes).1 right
    exact right

-- The periods can be decided exactly when each of their states can be.
theorem attemptDown_eq_ok_iff (complete : Complete P config spaces)
    (inside : left ≤ config.horizon) :
    attemptDown P config spaces left = .ok () ↔
      ∀ n < left, ∀ s ∈ statesOf spaces (config.horizon - (n + 1)),
        P.Solvable config (kept P config spaces) n s := by
  induction left with
  | zero => exact ⟨fun _ => nofun, fun _ => rfl⟩
  | succ left ih =>
    have solvable : attemptDown P config spaces left = .ok () →
        ∀ s ∈ statesOf spaces (config.horizon - (left + 1)), ∀ d,
          P.attempt config (kept P config spaces) (left + 1) s = .ok d ↔
            P.Solvable config (kept P config spaces) left s ∧
              d = P.optimal config (kept P config spaces) (left + 1) s := by
      intro later s member d
      apply Problem.attempt_succ_eq_ok_iff
      intro a _ f outcome
      have next := complete.mem_statesOf_of_mem_kept outcome
      have period := (complete.period_of_mem member).1
      rw [show P.period s + 1 = config.horizon - left by omega] at next
      exact attempt_of_attemptDown complete (by omega) later next
    rw [attemptDown_succ_eq_ok_iff]
    constructor
    · rintro ⟨later, ds, decided⟩ n before s member
      rcases Nat.lt_succ_iff_lt_or_eq.1 before with before | rfl
      · exact (ih (by omega)).1 later n before s member
      · obtain ⟨d, right⟩ := exists_ok_of_mapM decided s member
        exact ((solvable later s member d).1 right).1
    · intro each
      have later := (ih (by omega)).2 fun n before => each n (by omega)
      exact ⟨later, _, mapM_eq_ok_of_forall fun s member =>
        (solvable later s member _).2 ⟨each left (by omega) s member, rfl⟩⟩

-- The same with the periods counted from the first one on.
theorem attemptDown_eq_ok_iff_solvable (complete : Complete P config spaces)
    (inside : left ≤ config.horizon) :
    attemptDown P config spaces left = .ok () ↔
      ∀ t < config.horizon, config.horizon - left ≤ t → ∀ s ∈ statesOf spaces t,
        P.Solvable config (kept P config spaces) (config.horizon - (t + 1)) s := by
  rw [attemptDown_eq_ok_iff complete inside]
  constructor
  · intro each t below above s member
    refine each (config.horizon - (t + 1)) (by omega) s ?_
    rwa [show config.horizon - (config.horizon - (t + 1) + 1) = t by omega]
  · intro each n before s member
    have there := each (config.horizon - (n + 1)) (by omega) (by omega) s member
    rwa [show config.horizon - (config.horizon - (n + 1) + 1) = n by omega] at there

end Attempts

end Horizon.Backward
