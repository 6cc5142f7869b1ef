import Horizon.Forward
import Horizon.Proofs.Computation
import Horizon.Proofs.Lawful

/-! A forward recursion gives what the recursion without a ledger gives.

The invariant is `Faithful`: whatever has been entered is what `attempt` and `attemptAction` give.
A value is asked for under it with the periods that are left after its state, so the induction is
on these, and it does not matter what else has been entered, or which computations failed before.
-/

set_option autoImplicit false

namespace Horizon.Forward

open LedgerM

variable {σ α ρ : Type} [DecidableEq σ] [DecidableEq α] [Scalar ρ]

abbrev kept (P : Problem σ α ρ) (config : Config ρ) : σ → α → List σ :=
  P.outcomesKept config.outcomeSampling config.seed

/-- Every entry of the ledger is what the recursion without a ledger gives. -/
structure Faithful (P : Problem σ α ρ) (config : Config ρ) (w : Ledger σ α ρ × Frontier σ) :
    Prop where
  discount_eq : w.1.discount = config.discount
  expected : ∀ s a x, w.1.expected? s a = some x → P.period s < config.horizon ∧
    P.attemptAction config (kept P config)
      (config.horizon - (P.period s + 1)) s a = .ok x
  decided : ∀ s d, w.1.decision? s = some d → P.period s ≤ config.horizon ∧
    P.attempt config (kept P config) (config.horizon - P.period s) s = .ok d

def attemptRun (P : Problem σ α ρ) (config : Config ρ) (initial : σ) :
    Except (SolveError σ α) ρ :=
  if config.horizon < P.period initial then .error (.startBeyond (P.period initial) config.horizon)
  else do
    return (← P.attempt config (kept P config)
      (config.horizon - P.period initial) initial).value

variable {P : Problem σ α ρ} {config : Config ρ}

theorem memo_faithful :
    Memo (Faithful P config) config.discount
      fun s a x => P.period s < config.horizon ∧
        P.attemptAction config (kept P config)
          (config.horizon - (P.period s + 1)) s a = .ok x where
  discount_eq _ faithful := faithful.discount_eq
  faithful _ faithful := faithful.expected
  enter l _ faithful s a x worth := by
    refine ⟨(l.discount_enterExpected s a x).trans faithful.discount_eq,
      fun s' a' y entered => ?_, fun s' d decided => ?_⟩
    · rcases Ledger.expected?_or_of_enterExpected entered with old | ⟨same, rfl⟩
      · exact faithful.expected s' a' y old
      · cases same
        exact worth
    · rw [Ledger.decision?_enterExpected] at decided
      exact faithful.decided s' d decided
  collect _ _ faithful _ _ _ := ⟨faithful.discount_eq, faithful.expected, faithful.decided⟩

-- A decision may be there already when it is published, entered by the recursion for an outcome.
-- It is the same one then, and only the flag differs.
theorem computes_publish {β : Type} {s : σ} {d : Decision α ρ}
    {next : Decision α ρ × Bool → LedgerM σ α ρ (Frontier σ) β}
    {result : Except (SolveError σ α) β} (inside : P.period s ≤ config.horizon)
    (right : P.attempt config (kept P config)
      (config.horizon - P.period s) s = .ok d)
    (after : ∀ isNew, Computes (Faithful P config) (next (d, isNew)) result) :
    Computes (Faithful P config) (onLedger (·.publish s d) >>= next) result := by
  rintro ⟨l, c⟩ faithful
  have published : Faithful P config ((l.publish s d).2, c) := by
    refine ⟨(l.discount_publish s d).trans faithful.discount_eq,
      fun s' a x entered => ?_, fun s' d' decided => ?_⟩
    · rw [Ledger.expected?_publish] at entered
      exact faithful.expected s' a x entered
    · rcases Ledger.decision?_or_of_publish decided with old | ⟨rfl, rfl⟩
      · exact faithful.decided s' d' old
      · exact ⟨inside, right⟩
  have stored : (l.publish s d).1.1 = d := by
    unfold Ledger.publish
    split
    · next z held => exact Except.ok.inj ((faithful.decided s z held).2.symm.trans right)
    · rfl
  have ran : onLedger (·.publish s d) (l, c) =
      (.ok (d, (l.publish s d).1.2), ((l.publish s d).2, c)) := by
    rw [onLedger]
    exact congrArg (fun x : Decision α ρ => (Except.ok (x, _), _)) stored
  rw [bind_of_ok ran]
  exact after _ ((l.publish s d).2, c) published

theorem computes_decidedOr {s : σ} {solve : LedgerM σ α ρ (Frontier σ) ρ}
    {result : Except (SolveError σ α) (Decision α ρ)}
    (right : P.attempt config (kept P config)
      (config.horizon - P.period s) s = result)
    (solved : Computes (Faithful P config) solve (do return (← result).value)) :
    Computes (Faithful P config) (decidedOr s solve) (do return (← result).value) := by
  rintro ⟨l, c⟩ faithful
  cases held : l.decision? s with
  | some d =>
    rw [decidedOr, query_bind held, ← right, (faithful.decided s d held).2]
    exact ⟨rfl, faithful.discount_eq, faithful.expected, faithful.decided⟩
  | none =>
    rw [decidedOr, query_bind held]
    exact solved (l, c) faithful

theorem computes_onFrontier (f : Frontier σ → Frontier σ) :
    Computes (Faithful P config) (onContext f) (.ok ()) :=
  computes_onContext fun _ _ faithful =>
    ⟨faithful.discount_eq, faithful.expected, faithful.decided⟩

-- By induction on the periods left. Nothing is known of the ledger but the invariant: what has been
-- entered before, by this call or by others that failed, does not matter.
theorem computes_valueOf (lawful : P.Lawful) (left : Nat) (s : σ)
    (inside : P.period s + left = config.horizon) :
    Computes (Faithful P config) (valueOf P config left s)
      (do return (← P.attempt config (kept P config)
        left s).value) := by
  induction left generalizing s with
  | zero =>
    have periods : config.horizon - P.period s = 0 := by omega
    have right : P.attempt config (kept P config)
        (config.horizon - P.period s) s = .ok ⟨P.terminal s, none⟩ := by
      rw [periods]
      rfl
    refine computes_decidedOr right ?_
    refine (computes_onFrontier _).andThen ?_
    exact computes_publish (by omega) right fun _ => computes_pure _
  | succ left ih =>
    have periods : config.horizon - P.period s = left + 1 := by omega
    have right : P.attempt config (kept P config)
        (config.horizon - P.period s) s = P.attempt config
          (kept P config) (left + 1) s := by
      rw [periods]
    have evaluated : ∀ a ∈ P.actions s, Computes (Faithful P config)
        (expectedValue P (pure (kept P config s a))
          (valueOf P config left) s a)
        (P.attemptAction config (kept P config) left s a) := by
      intro a _
      refine memo_faithful.computes_expectedValue (fun x => ?_) fun f kept => ?_
      · rw [show config.horizon - (P.period s + 1) = left by omega]
        exact ⟨fun both => both.2, fun worth => ⟨by omega, worth⟩⟩
      · have next := lawful.period_of_mem_outcomesKept kept
        exact ih f (by omega)
    refine computes_decidedOr right ?_
    refine (computes_onFrontier _).andThen ?_
    dsimp only
    rw [← bind_assoc]
    refine (computes_decision evaluated).bind fun d decided => ?_
    refine computes_publish (by omega) (right.trans decided) fun isNew => ?_
    cases isNew with
    | true => exact (computes_onFrontier _).andThen (computes_pure _)
    | false => exact computes_pure _

def runAll (r : Forward σ α ρ) : List σ → List (Except (SolveError σ α) ρ) × Forward σ α ρ
  | [] => ([], r)
  | s :: rest =>
    let (result, r) := r.run s
    let (results, r) := r.runAll rest
    (result :: results, r)

structure Sound (P : Problem σ α ρ) (config : Config ρ) (r : Forward σ α ρ) : Prop where
  problem_eq : r.problem = P
  config_eq : r.config = config
  faithful : Faithful P config (r.ledger, r.frontier)

def start [Hashable σ] [Hashable α] (P : Problem σ α ρ) (config : Config ρ) : Forward σ α ρ :=
  ⟨P, config, ⟨(emptySpaces config).toArray, .zero⟩, .empty config.storage config.discount⟩

theorem new_eq_ok_iff [Hashable σ] [Hashable α] {fresh : Forward σ α ρ} :
    Forward.new P config = .ok fresh ↔ config.validate = .ok () ∧
      config.checkHorizon P.maxHorizon = .ok () ∧ fresh = start P config :=
  Config.checked_eq_ok_iff

theorem sound_of_new [Hashable σ] [Hashable α] {fresh : Forward σ α ρ}
    (new : Forward.new P config = .ok fresh) : Sound P config fresh := by
  obtain ⟨-, -, rfl⟩ := new_eq_ok_iff.1 new
  refine ⟨rfl, rfl, rfl, fun s a x entered => ?_, fun s d decided => ?_⟩
  · rw [start, Ledger.expected?, Ledger.empty, Store.get?_ofConfig] at entered
    cases entered
  · rw [start, Ledger.decision?, Ledger.empty, Store.get?_ofConfig] at decided
    cases decided

theorem Sound.run (lawful : P.Lawful) {r : Forward σ α ρ} (sound : Sound P config r) (s : σ) :
    (r.run s).1 = attemptRun P config s ∧ Sound P config (r.run s).2 := by
  obtain ⟨problem, configuration, frontier, ledger⟩ := r
  obtain ⟨problem_eq, config_eq, faithful⟩ := sound
  change problem = P at problem_eq
  change configuration = config at config_eq
  subst problem_eq config_eq
  rw [Forward.run, attemptRun]
  by_cases beyond : configuration.horizon < problem.period s
  · rw [if_pos beyond, if_pos beyond]
    exact ⟨rfl, rfl, rfl, faithful⟩
  · rw [if_neg beyond, if_neg beyond]
    obtain ⟨value, after⟩ := computes_valueOf lawful (configuration.horizon - problem.period s) s
      (by omega) (ledger, frontier) faithful
    exact ⟨value, rfl, rfl, after⟩

theorem Sound.runAll (lawful : P.Lawful) {r : Forward σ α ρ} (sound : Sound P config r)
    (initials : List σ) :
    (r.runAll initials).1 = initials.map (attemptRun P config) ∧
      Sound P config (r.runAll initials).2 := by
  induction initials generalizing r with
  | nil => exact ⟨rfl, sound⟩
  | cons s rest ih =>
    obtain ⟨value, after⟩ := sound.run lawful s
    obtain ⟨values, done⟩ := ih after
    refine ⟨?_, done⟩
    rw [Forward.runAll, List.map_cons, ← value, ← values]

/-- The ledger of a forward recursion cannot be told from its answers. Whatever calls were made
before, failed ones included, a call gives what it gives on a new recursion. Every decision and
every expected value that has been entered is what the recursion without a ledger gives, and a
state for which that fails has no decision. -/
theorem runAll_eq_fresh_runs [Hashable σ] [Hashable α] (lawful : P.Lawful) {fresh : Forward σ α ρ}
    (new : Forward.new P config = .ok fresh) (initials : List σ) :
    let after := (fresh.runAll initials).2
    (fresh.runAll initials).1 = initials.map (fun s => (fresh.run s).1) ∧
      (∀ s d, after.ledger.decision? s = some d → P.period s ≤ config.horizon ∧
        P.attempt config (kept P config) (config.horizon - P.period s) s = .ok d) ∧
      (∀ s a x, after.ledger.expected? s a = some x → P.period s < config.horizon ∧
        P.attemptAction config (kept P config) (config.horizon - (P.period s + 1)) s a = .ok x) ∧
      ∀ s e, P.attempt config (kept P config) (config.horizon - P.period s) s = .error e →
        after.ledger.decision? s = none := by
  have sound := sound_of_new new
  obtain ⟨values, after⟩ := sound.runAll lawful initials
  refine ⟨?_, after.faithful.decided, after.faithful.expected, fun s e failed => ?_⟩
  · rw [values]
    exact List.map_congr_left fun s _ => (sound.run lawful s).1.symm
  · rw [Option.eq_none_iff_forall_ne_some]
    intro d decided
    have right := (after.faithful.decided s d decided).2
    rw [failed] at right
    cases right

theorem new_uneven :
    Forward.new (Explicit.uneven : Explicit Float).problem (.exact 2) =
      .ok (start Explicit.uneven.problem (.exact 2)) :=
  rfl

-- A call that fails after it has entered the value of one action leaves no decision behind, and the
-- calls after it do not see it.
theorem runAll_eq_fresh_runs_uneven :
    let P : Problem Node Int Float := Explicit.uneven.problem
    let fresh := start P (.exact 2)
    let initials : List Node := [⟨0, 0⟩, ⟨0, 2⟩, ⟨0, 0⟩]
    let after := (fresh.runAll initials).2
    Forward.new P (.exact 2) = .ok fresh ∧
      (fresh.runAll initials).1 = initials.map (fun s => (fresh.run s).1) ∧
      (after.ledger.expected? ⟨0, 2⟩ 0).isSome ∧ after.ledger.decision? ⟨0, 2⟩ = none := by
  have new : Forward.new (Explicit.uneven : Explicit Float).problem (.exact 2) =
      .ok (start Explicit.uneven.problem (.exact 2)) := rfl
  obtain ⟨results, -, -, undecided⟩ :=
    runAll_eq_fresh_runs Explicit.uneven.lawful new [⟨0, 0⟩, ⟨0, 2⟩, ⟨0, 0⟩]
  refine ⟨new, results, by decide +kernel, ?_⟩
  let P : Problem Node Int Float := Explicit.uneven.problem
  have failed : (P.attempt (.exact 2) (kept P (.exact 2)) 2 ⟨0, 2⟩).toOption.isNone = true := by
    decide +kernel
  cases attempted : P.attempt (.exact 2) (kept P (.exact 2)) 2 ⟨0, 2⟩ with
  | error e => exact undecided ⟨0, 2⟩ e attempted
  | ok d =>
    rw [attempted] at failed
    cases failed

end Horizon.Forward
