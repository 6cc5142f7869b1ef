import Horizon.Proofs.Solvability

/-! How far a partial run agrees with a full one.

Both generate the same states and pass over the periods after the target in the same way, so there
they leave the same decisions. At the target the partial run stores what the idle action is worth
with those decisions; the full run has compared that value with the others of the state, if idling
is feasible there, so it is not better than the value that the full run stores. The periods before
the target are left alone.
-/

set_option autoImplicit false

namespace Horizon.Backward

variable {σ α ρ : Type} [DecidableEq σ] [DecidableEq α] [Scalar ρ]

/-- Where a run with the recursion `part` stopped at `target` instead of going on as `full`. -/
structure Approximates (P : Problem σ α ρ) (config : Config ρ) (target : Nat)
    (part full : Backward σ α ρ) : Prop where
  spaces_eq : part.spaces = full.spaces
  later : ∀ s, target < P.period s → part.ledger.decision? s = full.ledger.decision? s
  idle : ∀ s ∈ statesOf full.spaces target, ∃ x,
    P.appraise config.discount full.ledger.value s (P.idle s)
        (kept P config full.spaces s (P.idle s)) = .ok x ∧
      part.ledger.decision? s = some ⟨x, some (P.idle s)⟩ ∧
      (P.idle s ∈ P.actions s → Scalar.isNaN x = false ∧
        ∃ best, full.ledger.value s = .ok best ∧ config.direction.improves x best = false)
  earlier : ∀ s, P.period s < target → part.ledger.decision? s = none

section Stored

variable {P : Problem σ α ρ} {config : Config ρ} {spaces : List (StateSpace σ)} {target : Nat}
  {s : σ}

omit [DecidableEq α] in
theorem decisionsWithIdle_of_later (complete : Complete P config spaces)
    (below : target < config.horizon) (later : target < P.period s) :
    decisionsWithIdle P config spaces (config.horizon - (target + 1)) s =
      decisionsOf P config spaces config.horizon s := by
  have outside : s ∉ statesOf spaces (config.horizon - (config.horizon - (target + 1) + 1)) := by
    intro member
    have period := (complete.period_of_mem member).1
    omega
  have condition : config.horizon ≤ P.period s + (config.horizon - (target + 1)) ↔
      config.horizon ≤ P.period s + config.horizon := by
    omega
  rw [decisionsWithIdle, fill, if_neg outside, decisionsOf, decisionsOf]
  simp only [condition]

omit [DecidableEq α] in
theorem decisionsWithIdle_of_earlier (complete : Complete P config spaces)
    (below : target < config.horizon) (earlier : P.period s < target) :
    decisionsWithIdle P config spaces (config.horizon - (target + 1)) s = none := by
  have outside : s ∉ statesOf spaces (config.horizon - (config.horizon - (target + 1) + 1)) := by
    intro member
    have period := (complete.period_of_mem member).1
    omega
  rw [decisionsWithIdle, fill, if_neg outside, decisionsOf, if_neg (by omega)]

end Stored

section Runs

variable [Hashable σ] [Hashable α] [Scalar.Ranked ρ] {P : Problem σ α ρ} {config : Config ρ}
  {b : Backward σ α ρ} (lawful : P.Lawful) (new : Backward.new P config = .ok b) {target : Nat}
  (below : target < config.horizon) (full : b.run.1 = .ok ())

include lawful new below full

-- The successors of a state of the target have the values that the full run gives them.
theorem appraise_of_run {s : σ} (member : s ∈ statesOf (generatedSpaces P config) target) {a : α}
    (weighable : P.Weighable s a (kept P config (generatedSpaces P config) s a)) :
    P.appraise config.discount b.run.2.ledger.value s a
        (kept P config (generatedSpaces P config) s a) =
      .ok (P.actionValue config (kept P config (generatedSpaces P config))
        (config.horizon - (target + 1)) s a) := by
  have complete : Complete P config (generatedSpaces P config) :=
    complete_generatedSpaces lawful config
  refine Problem.appraise_of_known (fun f outcome => ?_)
    (Problem.weights_eq_ok_iff.2 ⟨weighable, rfl⟩)
  have next := complete.mem_statesOf_of_mem_kept outcome
  rw [(complete.period_of_mem member).1] at next
  rw [Ledger.value, decision?_of_run lawful new full below next]

-- A feasible action has been compared with the one that the full run stores.
theorem value_of_run_unbeaten {s : σ} (member : s ∈ statesOf (generatedSpaces P config) target)
    {a : α} (feasible : a ∈ P.actions s) :
    let x := P.actionValue config (kept P config (generatedSpaces P config))
      (config.horizon - (target + 1)) s a
    Scalar.isNaN x = false ∧
      ∃ best, b.run.2.ledger.value s = .ok best ∧ config.direction.improves x best = false := by
  have solvable := (run_eq_ok_iff lawful new).1 full target below s member
  obtain ⟨a', first, best⟩ := solvable.isFirstBest
  have stored := decision?_of_run lawful new full below.le member
  rw [show config.horizon - target = config.horizon - (target + 1) + 1 by omega, best] at stored
  refine ⟨solvable.number a feasible, _, ?_, first.unbeaten (List.mem_map_of_mem feasible)⟩
  rw [Ledger.value, stored]

/-- When a partial run and a full one on new recursions succeed, they decide the states of the
periods after the target alike. Each state of the target is decided in the partial run for its idle
action, with what the decisions of the full run make that action worth; where the action is feasible
this is not better than the value in the full run, and in lot sizing it always is feasible. No state
before the target is decided in the partial run. -/
theorem runToPeriod_approximates_run (part : (b.runToPeriod target).1 = .ok ()) :
    Approximates P config target (b.runToPeriod target).2 b.run.2 ∧
      ∀ (m : LotSizing ρ) (l : Level), m.problem.idle l ∈ m.problem.actions l := by
  refine ⟨?_, LotSizing.idleOrder_mem_orders⟩
  have complete : Complete P config (generatedSpaces P config) :=
    complete_generatedSpaces lawful config
  obtain ⟨-, spaces, decided⟩ := run_of_new lawful new
  obtain ⟨-, spaces', decided'⟩ := runToPeriod_of_new lawful new below
  have held := (decided full).decided
  have held' := (decided' part).decided
  refine ⟨spaces'.trans spaces.symm, fun s later => ?_, fun s member => ?_, fun s earlier => ?_⟩
  · rw [held s, held' s, decisionsWithIdle_of_later complete below later]
  · rw [spaces] at member ⊢
    have weighable := ((runToPeriod_eq_ok_iff lawful new below).1 part).2 s member
    exact ⟨_, appraise_of_run lawful new below full member weighable,
      (decision?_of_runToPeriod lawful new below part member).2 rfl,
      value_of_run_unbeaten lawful new below full member⟩
  · rw [held' s, decisionsWithIdle_of_earlier complete below earlier]

end Runs

-- The first decision of `Explicit.uneven`: idling costs no less than the best action.
theorem runToPeriod_approximates_run_uneven :
    let P : Problem Node Int Float := Explicit.uneven.problem
    let config : Config Float := .exact 2
    let b := start P config
    b.run.1 = .ok () ∧ (b.runToPeriod 0).1 = .ok () ∧ ⟨0, 0⟩ ∈ statesOf b.run.2.spaces 0 ∧
      Approximates P config 0 (b.runToPeriod 0).2 b.run.2 := by
  have part : ((start (Explicit.uneven : Explicit Float).problem (.exact 2)).runToPeriod 0).1 =
      .ok () :=
    eq_ok_of_toOption (by decide +kernel)
  exact ⟨run_uneven, part, by decide +kernel,
    (runToPeriod_approximates_run Explicit.uneven.lawful new_uneven (by decide) run_uneven part).1⟩

end Horizon.Backward
