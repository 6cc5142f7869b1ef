import Horizon.Proofs.BackwardRun
import Horizon.Proofs.ForwardRun

/-! Backward and forward recursion agree when every state is enumerated.

On a closed domain the outcomes known in the next period are all outcomes there are, so both
recursions keep the same ones (`kept_eq_kept`) and make the same attempts (`attempt_eq_attempt`). A
forward run leaves the decision of its initial state in the ledger (`isSome_of_run`).
-/

set_option autoImplicit false

namespace Horizon

variable {σ α ρ : Type} [DecidableEq σ]

namespace Backward

variable [Hashable σ] [Scalar ρ] {P : Problem σ α ρ} {config : Config ρ} {t : Nat} {s : σ}

theorem mem_statesOf_generatedSpaces (lawful : P.Lawful)
    (exhaustive : config.stateSampling.isExhaustive = true) (inside : t ≤ config.horizon) :
    s ∈ statesOf (generatedSpaces P config) t ↔ s ∈ P.domain t := by
  obtain ⟨space, found, -, states, -⟩ :=
    (complete_generatedSpaces lawful config).exists_space inside
  rw [states]
  exact mem_enumerated_iff_of_exhaustive exhaustive found

theorem kept_eq_kept (lawful : P.Lawful) (closed : P.Closed config.horizon)
    (exhaustive : config.stateSampling.isExhaustive = true) (before : t < config.horizon)
    (member : s ∈ P.domain t) {a : α} (feasible : a ∈ P.actions s) :
    kept P config (generatedSpaces P config) s a = Forward.kept P config s a := by
  obtain ⟨next, found, orderly, -⟩ :=
    (complete_generatedSpaces lawful config).exists_space before
  have all : (P.outcomes s a).filter next.contains = P.outcomes s a := by
    rw [List.filter_eq_self]
    intro f outcome
    rw [orderly.known, mem_enumerated_iff_of_exhaustive exhaustive found]
    exact closed t before s member a feasible f outcome
  rw [← lawful.period_domain t s member] at found
  rw [kept, found]
  dsimp only
  rw [all]
  rfl

theorem attempt_eq_attempt (lawful : P.Lawful) (closed : P.Closed config.horizon)
    (exhaustive : config.stateSampling.isExhaustive = true) (inside : t ≤ config.horizon)
    (member : s ∈ P.domain t) :
    P.attempt config (kept P config (generatedSpaces P config)) (config.horizon - t) s =
      P.attempt config (Forward.kept P config) (config.horizon - t) s := by
  have next : ∀ left, left + 1 ≤ config.horizon →
      config.horizon - left = config.horizon - (left + 1) + 1 := by omega
  -- the recursion stays in the domain, by closure, and there both keep the same outcomes
  refine Problem.attempt_congr
    (fun left s => left ≤ config.horizon ∧ s ∈ P.domain (config.horizon - left))
    ?_ ?_ _ s ⟨Nat.sub_le _ _, ?_⟩
  · rintro left s ⟨bound, member⟩ a feasible
    exact kept_eq_kept lawful closed exhaustive (by omega) member feasible
  · rintro left s ⟨bound, member⟩ a feasible f outcome
    refine ⟨by omega, ?_⟩
    rw [next left bound]
    exact closed _ (by omega) s member a feasible f (mem_outcomes_of_mem_kept outcome).1
  · rwa [show config.horizon - (config.horizon - t) = t by omega]

end Backward

namespace Forward

open LedgerM

variable [DecidableEq α]

section Decided

variable {s : σ} {ω β γ : Type}

def Decides (s : σ) (m : LedgerM σ α ρ ω β) : Prop :=
  ∀ w x w', m w = (.ok x, w') → (w'.1.decision? s).isSome

theorem Decides.bind {m : LedgerM σ α ρ ω β} {f : β → LedgerM σ α ρ ω γ}
    (each : ∀ x, Decides s (f x)) : Decides s (m >>= f) := by
  intro w y w' done
  obtain ⟨x, w'', -, second⟩ := exists_of_bind done
  exact each x w'' y w' second

theorem decides_publish {d : Decision α ρ} {f : Decision α ρ × Bool → LedgerM σ α ρ ω γ}
    (still : ∀ x w y w', f x w = (.ok y, w') → w'.1 = w.1) :
    Decides s (onLedger (·.publish s d) >>= f) := by
  rintro ⟨l, c⟩ y w' done
  obtain ⟨x, w'', first, second⟩ := exists_of_bind done
  rw [still x w'' y w' second]
  cases first
  have published : ((l.publish s d).2.decision? s).isSome := by
    rw [Ledger.decision?_publish, if_pos rfl]
    cases l.decision? s <;> rfl
  exact published

end Decided

theorem decides_decidedOr [Scalar ρ] {s : σ} {solve : LedgerM σ α ρ (Frontier σ) ρ}
    (solved : Decides s solve) : Decides s (decidedOr s solve) := by
  rintro ⟨l, c⟩ x w' done
  unfold decidedOr at done
  cases held : l.decision? s with
  | some d =>
    rw [query_bind held] at done
    cases done
    rw [held]
    rfl
  | none =>
    rw [query_bind held] at done
    exact solved (l, c) x w' done

theorem decides_valueOf [Scalar ρ] (P : Problem σ α ρ) (config : Config ρ) (left : Nat) (s : σ) :
    Decides s (valueOf P config left s) := by
  cases left with
  | zero =>
    refine decides_decidedOr (Decides.bind fun _ => decides_publish fun x w y w' done => ?_)
    cases done
    rfl
  | succ left =>
    refine decides_decidedOr (Decides.bind fun _ => Decides.bind fun _ => Decides.bind fun _ => ?_)
    refine decides_publish ?_
    rintro ⟨d, isNew⟩ w y w' done
    cases isNew <;> cases done <;> rfl

theorem isSome_of_run [Scalar ρ] {r : Forward σ α ρ} {s : σ} {x : ρ} (done : (r.run s).1 = .ok x) :
    ((r.run s).2.ledger.decision? s).isSome := by
  obtain ⟨P, config, frontier, ledger⟩ := r
  rw [Forward.run] at done ⊢
  split
  · next beyond =>
    rw [if_pos beyond] at done
    cases done
  · next within =>
    rw [if_neg within] at done
    exact decides_valueOf P config _ s (ledger, frontier) x _ (Prod.ext done rfl)

theorem run_eq_of_attempt [Hashable σ] [Hashable α] [Scalar ρ] {P : Problem σ α ρ}
    {config : Config ρ} (lawful : P.Lawful) {r : Forward σ α ρ}
    (new : Forward.new P config = .ok r) {s : σ} (inside : P.period s ≤ config.horizon) :
    (r.run s).1 = (do
      return (← P.attempt config (kept P config) (config.horizon - P.period s) s).value) := by
  rw [((sound_of_new new).run lawful s).1, attemptRun, if_neg (Nat.not_lt.2 inside)]

theorem decision?_of_run [Hashable σ] [Hashable α] [Scalar ρ] {P : Problem σ α ρ}
    {config : Config ρ} (lawful : P.Lawful) {r : Forward σ α ρ}
    (new : Forward.new P config = .ok r) {s : σ} {d : Decision α ρ}
    (inside : P.period s ≤ config.horizon)
    (right : P.attempt config (kept P config) (config.horizon - P.period s) s = .ok d) :
    (r.run s).1 = .ok d.value ∧ (r.run s).2.ledger.decision? s = some d := by
  have done : (r.run s).1 = .ok d.value := by
    rw [run_eq_of_attempt lawful new inside, right]
    rfl
  obtain ⟨d', decided⟩ := Option.isSome_iff_exists.1 (isSome_of_run done)
  have right' := (((sound_of_new new).run lawful s).2.faithful.decided s d' decided).2
  cases right.symm.trans right'
  exact ⟨done, decided⟩

end Forward

variable [DecidableEq α] [Hashable σ] [Hashable α] [Scalar ρ]

/-- A forward run from a state succeeds, and gives it the value and the action that the backward run
gives it. -/
structure AgreeAt (b : Backward σ α ρ) (r : Forward σ α ρ) (s : σ) : Prop where
  succeeds : ∃ x, (r.run s).1 = .ok x
  result_eq : (r.run s).1 = b.run.2.ledger.value s
  value_eq : (r.run s).2.ledger.value s = b.run.2.ledger.value s
  action_eq : (r.run s).2.ledger.action s = b.run.2.ledger.action s

section Closed

variable {P : Problem σ α ρ} {config : Config ρ} (lawful : P.Lawful)
  (closed : P.Closed config.horizon) (exhaustive : config.stateSampling.isExhaustive = true)
  {b : Backward σ α ρ} (newBackward : Backward.new P config = .ok b)
  {r : Forward σ α ρ} (newForward : Forward.new P config = .ok r)

include lawful closed exhaustive newBackward newForward

theorem backward_run_of_forward_runs
    (each : ∀ t ≤ config.horizon, ∀ s ∈ P.domain t, ∃ x, (r.run s).1 = .ok x) :
    b.run.1 = .ok () := by
  rw [(Backward.run_of_new lawful newBackward).1]
  apply Backward.attemptDown_of_attempts
  intro n before s listed
  have inside : config.horizon - (n + 1) ≤ config.horizon := Nat.sub_le _ _
  have member := (Backward.mem_statesOf_generatedSpaces lawful exhaustive inside).1 listed
  have period := lawful.period_domain _ s member
  have same := Backward.attempt_eq_attempt lawful closed exhaustive inside member
  obtain ⟨x, ran⟩ := each _ inside s member
  rw [Forward.run_eq_of_attempt lawful newForward (by omega), period] at ran
  rw [show config.horizon - (config.horizon - (n + 1)) = n + 1 by omega] at same ran
  rw [same]
  cases attempted : P.attempt config (Forward.kept P config) (n + 1) s with
  | ok d => exact ⟨d, rfl⟩
  | error e =>
    rw [attempted] at ran
    cases ran

variable [Scalar.Ranked ρ]

theorem agreeAt_of_run (done : b.run.1 = .ok ()) {t : Nat} (inside : t ≤ config.horizon) {s : σ}
    (member : s ∈ P.domain t) :
    AgreeAt b r s ∧ (t = config.horizon → b.run.2.ledger.action s = .error (.noDecision s)) := by
  have listed := (Backward.mem_statesOf_generatedSpaces lawful exhaustive inside).2 member
  have period := lawful.period_domain t s member
  have stored := Backward.decision?_of_run lawful newBackward done inside listed
  have attempted := Backward.attempt_of_run lawful newBackward done inside listed
  rw [Backward.attempt_eq_attempt lawful closed exhaustive inside member] at attempted
  rw [← period] at attempted inside
  obtain ⟨ran, decided⟩ := Forward.decision?_of_run lawful newForward inside attempted
  rw [period] at ran decided
  refine ⟨⟨⟨_, ran⟩, ?_, ?_, ?_⟩, ?_⟩
  · rw [ran, Ledger.value, stored]
  · rw [Ledger.value, Ledger.value, stored, decided]
  · rw [Ledger.action, Ledger.action, stored, decided]
  · rintro rfl
    rw [Ledger.action, stored, Nat.sub_self]
    rfl

end Closed

/-- With every state enumerated, backward and forward recursion agree on closed domains, and the
domains of lot sizing are closed. -/
theorem forward_agrees_with_backward {ρ : Type} [Scalar ρ] [Scalar.Ranked ρ] (config : Config ρ)
    (exhaustive : config.stateSampling.isExhaustive = true) :
    (∀ (σ α : Type) [DecidableEq σ] [DecidableEq α] [Hashable σ] [Hashable α] (P : Problem σ α ρ)
        (b : Backward σ α ρ) (r : Forward σ α ρ),
      P.Lawful → P.Closed config.horizon →
      Backward.new P config = .ok b → Forward.new P config = .ok r →
      (b.run.1 = .ok () ↔
        ∀ t ≤ config.horizon, ∀ s ∈ P.domain t, ∃ x, (r.run s).1 = .ok x) ∧
      (b.run.1 = .ok () → ∀ t ≤ config.horizon, ∀ s ∈ P.domain t,
        AgreeAt b r s ∧
          (t = config.horizon → b.run.2.ledger.action s = .error (.noDecision s)))) ∧
    ∀ m : LotSizing ρ, m.Built → m.problem.Closed config.horizon ∧
      ∀ b r, Backward.new m.problem config = .ok b → Forward.new m.problem config = .ok r →
        b.run.1 = .ok () → ∀ t ≤ config.horizon, ∀ x, m.least ≤ x → x ≤ m.greatest →
          AgreeAt b r ⟨t, x⟩ := by
  refine ⟨?_, fun m built => ⟨m.closed built.bounds _, ?_⟩⟩
  · intro σ α _ _ _ _ P b r lawful closed newBackward newForward
    have agree : b.run.1 = .ok () → ∀ t ≤ config.horizon, ∀ s ∈ P.domain t, AgreeAt b r s ∧
        (t = config.horizon → b.run.2.ledger.action s = .error (.noDecision s)) :=
      fun done t inside s member =>
        agreeAt_of_run lawful closed exhaustive newBackward newForward done inside member
    refine ⟨⟨fun done t inside s member => (agree done t inside s member).1.succeeds, ?_⟩, agree⟩
    exact backward_run_of_forward_runs lawful closed exhaustive newBackward newForward
  · intro b r newBackward newForward done t inside x above below
    have member : (⟨t, x⟩ : Level) ∈ m.problem.domain t :=
      LotSizing.mem_levels.2 ⟨rfl, above, below⟩
    exact (agreeAt_of_run m.lawful (m.closed built.bounds _) exhaustive newBackward newForward done
      inside member).1

-- Both recursions on `Explicit.uneven`, and on a lot sizing instance.
theorem forward_agrees_with_backward_uneven :
    let P : Problem Node Int Float := Explicit.uneven.problem
    let m : LotSizing Float := .oneUnit
    (Backward.start P (.exact 2)).run.1 = .ok () ∧
      AgreeAt (Backward.start P (.exact 2)) (Forward.start P (.exact 2)) ⟨0, 0⟩ ∧
      (Backward.start m.problem (.exact 1)).run.1 = .ok () ∧
      AgreeAt (Backward.start m.problem (.exact 1)) (Forward.start m.problem (.exact 1))
        ⟨0, 1⟩ := by
  intro P m
  have built : m.Built :=
    .new (rfl : LotSizing.new ⟨1, 1, 1, 1⟩ #[.point 1] 0 2 = .ok m)
  have done : (Backward.start m.problem (.exact 1)).run.1 = .ok () :=
    eq_ok_of_toOption (by decide +kernel)
  obtain ⟨explicit, -⟩ := forward_agrees_with_backward (.exact 2 : Config Float) rfl
  obtain ⟨-, lots⟩ := forward_agrees_with_backward (.exact 1 : Config Float) rfl
  refine ⟨Backward.run_uneven, ?_, done, ?_⟩
  · have both := (explicit Node Int P _ _ Explicit.uneven.lawful Explicit.closed_uneven rfl rfl).2
    exact (both Backward.run_uneven 0 (by decide) ⟨0, 0⟩ (by decide)).1
  · exact (lots m built).2 _ _ rfl rfl done 0 (by decide) 1 (by decide) (by decide)

end Horizon
