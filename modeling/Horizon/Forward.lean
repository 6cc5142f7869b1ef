import Horizon.Backward

/-! Forward recursion: the states that are reachable from an initial one, in the order in which
their values are asked for.

The value of a state is worked out when it is first asked for, by recursion on the number of
periods left, and looked up from then on. A state becomes known before its actions are evaluated.
They are evaluated from left to right, so the value of a state is never asked for while it is being
worked out elsewhere; that no two branches reach an undecided state at once is assumed.
-/

set_option autoImplicit false

namespace Horizon

structure Frontier (σ : Type) [DecidableEq σ] where
  spaces : Array (StateSpace σ)
  tally : Tally

def Frontier.enter {σ : Type} [DecidableEq σ] (f : Frontier σ) (t : Nat) (s : σ) :
    Frontier σ :=
  let isNew :=
    match f.spaces[t]? with
    | some space => !space.contains s
    | none => false
  if isNew then
    match f with
    | ⟨spaces, tally⟩ => ⟨spaces.modify t fun space => (space.mention s).2, tally.addGenerated 1⟩
  else f

def Frontier.count {σ : Type} [DecidableEq σ] (f : Frontier σ) (step : Tally → Tally) :
    Frontier σ :=
  match f with
  | ⟨spaces, tally⟩ => ⟨spaces, step tally⟩

structure Forward (σ α ρ : Type) [DecidableEq σ] [DecidableEq α] where
  problem : Problem σ α ρ
  config : Config ρ
  frontier : Frontier σ
  ledger : Ledger σ α ρ

namespace Forward

variable {σ α ρ : Type} [DecidableEq σ] [DecidableEq α] [Scalar ρ]

@[specialize] def decidedOr (s : σ) (solve : LedgerM σ α ρ (Frontier σ) ρ) :
    LedgerM σ α ρ (Frontier σ) ρ := do
  match ← LedgerM.query fun l => .ok (l.decision? s) with
  | some d =>
    LedgerM.onContext (Frontier.count · Tally.addReused)
    return d.value
  | none => solve

/-- The value of a state with a number of periods left before the horizon. -/
@[specialize] def valueOf (P : Problem σ α ρ) (config : Config ρ) :
    Nat → σ → LedgerM σ α ρ (Frontier σ) ρ
  | 0, s => decidedOr s do
    LedgerM.onContext (Frontier.enter · config.horizon s)
    let (d, _) ← LedgerM.onLedger (·.publish s ⟨P.terminal s, none⟩)
    return d.value
  | left + 1, s => decidedOr s do
    LedgerM.onContext (Frontier.enter · (config.horizon - (left + 1)) s)
    let evaluate := fun a => LedgerM.expectedValue P
      (pure (P.outcomesKept config.outcomeSampling config.seed s a)) (valueOf P config left) s a
    let candidates ← LedgerM.evaluateAll evaluate (P.actions s)
    let decision ← LedgerM.ofExcept (LedgerM.choose config.direction s candidates)
    let (d, isNew) ← LedgerM.onLedger (·.publish s decision)
    if isNew then LedgerM.onContext (Frontier.count · Tally.addSolved)
    return d.value

@[specialize] def new [Hashable σ] [Hashable α] (P : Problem σ α ρ) (config : Config ρ) :
    Except (ConfigError ρ) (Forward σ α ρ) := do
  config.validate
  config.checkHorizon P.maxHorizon
  return {
    problem := P
    config := config
    frontier := ⟨(emptySpaces config).toArray, .zero⟩
    ledger := .empty config.storage config.discount }

@[specialize] def run (r : Forward σ α ρ) (initial : σ) :
    Except (SolveError σ α) ρ × Forward σ α ρ :=
  match r with
  | ⟨problem, config, frontier, ledger⟩ =>
    if config.horizon < problem.period initial then
      (.error (.startBeyond (problem.period initial) config.horizon),
        ⟨problem, config, frontier, ledger⟩)
    else
      match valueOf problem config (config.horizon - problem.period initial) initial
        (ledger, frontier) with
      | (result, (ledger, frontier)) => (result, ⟨problem, config, frontier, ledger⟩)

def statistics (r : Forward σ α ρ) : Statistics :=
  ⟨r.frontier.tally.generated, r.frontier.tally.solved, r.frontier.tally.reused,
    r.ledger.evaluations⟩

end Forward

end Horizon
