import Horizon.Proofs.Computation
import Horizon.Proofs.Sweep

/-! Which errors end a computation.

A list of computations fails with the error of one of them. So the recursion of Bellman fails only
where the masses of outcomes cannot be used, a value is not a number, or a state has no action
(`attempt_error`); what only a ledger can report, a missing or a second decision, is not among them.
For computations on a ledger `FailsOnly` says the same whatever the ledger holds.
-/

set_option autoImplicit false

namespace Horizon

variable {σ α ρ : Type}

section Errors

variable {ε β γ : Type}

def failure? : Except ε β → Option ε
  | .error e => some e
  | .ok _ => none

theorem failure?_eq_some {m : Except ε β} {e : ε} : failure? m = some e ↔ m = .error e := by
  cases m <;> simp [failure?]

theorem exists_error_of_mapM {f : β → Except ε γ} {xs : List β} {e : ε}
    (failed : xs.mapM f = .error e) : ∃ x ∈ xs, f x = .error e := by
  induction xs with
  | nil => cases failed
  | cons x rest ih =>
    rw [List.mapM_cons] at failed
    cases first : f x with
    | error e' =>
      rw [first] at failed
      cases failed
      exact ⟨x, List.mem_cons_self, first⟩
    | ok y =>
      cases others : rest.mapM f with
      | error e' =>
        rw [first, others] at failed
        cases failed
        obtain ⟨z, member, same⟩ := ih others
        exact ⟨z, List.mem_cons_of_mem x member, same⟩
      | ok ys =>
        rw [first, others] at failed
        cases failed

end Errors

namespace Problem

variable [Scalar ρ] {P : Problem σ α ρ} {s : σ} {a : α} {e : SolveError σ α}

theorem mass_error {f : σ} (failed : P.mass s a f = .error e) : e = .degenerate s a := by
  unfold mass at failed
  dsimp only at failed
  split at failed
  · cases failed
  · exact (Except.error.inj failed).symm

theorem weights_error {finals : List σ} (failed : P.weights s a finals = .error e) :
    e = .degenerate s a := by
  unfold weights at failed
  cases masses : finals.mapM (P.mass s a) with
  | error e' =>
    rw [masses] at failed
    cases failed
    obtain ⟨f, -, failed⟩ := exists_error_of_mapM masses
    exact mass_error failed
  | ok ps =>
    simp only [masses, bind, Except.bind, pure, Except.pure] at failed
    split at failed
    · exact (Except.error.inj failed).symm
    · cases failed

theorem appraise_error {discount : ρ} {value : σ → Except (SolveError σ α) ρ} {finals : List σ}
    (failed : P.appraise discount value s a finals = .error e) :
    e = .degenerate s a ∨ ∃ f ∈ finals, value f = .error e := by
  unfold appraise at failed
  cases weighed : P.weights s a finals with
  | error e' =>
    rw [weighed] at failed
    cases failed
    exact .inl (weights_error weighed)
  | ok ws =>
    cases terms : (finals.zip ws).mapM fun x => P.term discount value s a x.1 x.2 with
    | ok ts =>
      simp only [weighed, terms, bind, Except.bind, pure, Except.pure] at failed
      cases failed
    | error e' =>
      simp only [weighed, terms, bind, Except.bind] at failed
      cases failed
      obtain ⟨x, member, failed⟩ := exists_error_of_mapM terms
      refine .inr ⟨x.1, (List.of_mem_zip member).1, ?_⟩
      unfold term at failed
      cases future : value x.1 with
      | error e' =>
        rw [future] at failed
        exact failed
      | ok y =>
        rw [future] at failed
        cases failed

end Problem

theorem LedgerM.choose_error [Scalar ρ] {direction : Direction} {s : σ} {candidates : List (α × ρ)}
    {e : SolveError σ α} (failed : choose direction s candidates = .error e) :
    (∃ a, e = .notNumber a) ∨ e = .noFeasibleAction s := by
  unfold choose at failed
  split at failed
  · next a _ => exact .inl ⟨a, (Except.error.inj failed).symm⟩
  · split at failed
    · cases failed
    · exact .inr (Except.error.inj failed).symm

theorem Problem.attempt_error [Scalar ρ] {P : Problem σ α ρ} {config : Config ρ}
    {kept : σ → α → List σ} {left : Nat} {s : σ} {e : SolveError σ α}
    (failed : P.attempt config kept left s = .error e) :
    (∃ s a, e = .degenerate s a) ∨ (∃ a, e = .notNumber a) ∨ ∃ s, e = .noFeasibleAction s := by
  induction left generalizing s with
  | zero => cases failed
  | succ left ih =>
    rw [attempt_succ] at failed
    cases valued : (P.actions s).mapM fun a => do
        return (a, ← P.attemptAction config kept left s a) with
    | ok candidates =>
      rw [valued] at failed
      rcases LedgerM.choose_error failed with number | none
      · exact .inr (.inl number)
      · exact .inr (.inr ⟨s, none⟩)
    | error e' =>
      rw [valued] at failed
      cases failed
      obtain ⟨a, -, failed⟩ := exists_error_of_mapM valued
      cases worth : P.attemptAction config kept left s a with
      | ok x =>
        rw [worth] at failed
        cases failed
      | error e' =>
        rw [worth] at failed
        cases failed
        rcases appraise_error worth with rfl | ⟨f, -, failed⟩
        · exact .inl ⟨s, a, rfl⟩
        · cases outcome : P.attempt config kept left f with
          | ok d =>
            rw [outcome] at failed
            cases failed
          | error e' =>
            rw [outcome] at failed
            cases failed
            exact ih outcome

theorem Backward.attemptDown_error [Scalar ρ] [DecidableEq σ] {P : Problem σ α ρ}
    {config : Config ρ}
    {spaces : List (StateSpace σ)} {left : Nat} {e : SolveError σ α}
    (failed : attemptDown P config spaces left = .error e) :
    ∃ n s, P.attempt config (kept P config spaces) n s = .error e := by
  induction left with
  | zero => cases failed
  | succ left ih =>
    rw [attemptDown] at failed
    cases later : attemptDown P config spaces left with
    | error e' =>
      rw [later] at failed
      cases failed
      exact ih later
    | ok _ =>
      cases decided : (statesOf spaces (config.horizon - (left + 1))).mapM
          (P.attempt config (kept P config spaces) (left + 1)) with
      | error e' =>
        rw [later, decided] at failed
        cases failed
        obtain ⟨s, -, failed⟩ := exists_error_of_mapM decided
        exact ⟨left + 1, s, failed⟩
      | ok ds =>
        rw [later, decided] at failed
        cases failed

namespace LedgerM

variable {ω β γ : Type} [DecidableEq σ] [DecidableEq α] {Q : SolveError σ α → Prop}

/-- Wherever it starts, an error that `m` ends in has the property `Q`. -/
def FailsOnly (Q : SolveError σ α → Prop) (m : LedgerM σ α ρ ω β) : Prop :=
  ∀ (w : Ledger σ α ρ × ω) (e : SolveError σ α), (m w).1 = .error e → Q e

theorem failsOnly_pure (x : β) : FailsOnly Q (pure x : LedgerM σ α ρ ω β) := by
  intro w e failed
  cases failed

theorem failsOnly_ofExcept {r : Except (SolveError σ α) β} (only : ∀ e, r = .error e → Q e) :
    FailsOnly Q (ofExcept r : LedgerM σ α ρ ω β) :=
  fun _ => only

theorem failsOnly_query {f : Ledger σ α ρ → Except (SolveError σ α) β}
    (only : ∀ l e, f l = .error e → Q e) : FailsOnly Q (query f : LedgerM σ α ρ ω β) :=
  fun w => only w.1

theorem failsOnly_onLedger (f : Ledger σ α ρ → β × Ledger σ α ρ) :
    FailsOnly Q (onLedger f : LedgerM σ α ρ ω β) := by
  intro w e failed
  cases failed

theorem failsOnly_onContext (f : ω → ω) :
    FailsOnly Q (onContext f : LedgerM σ α ρ ω Unit) := by
  intro w e failed
  cases failed

theorem failsOnly_decide {s : σ} (already : Q (.alreadySolved s)) (d : Decision α ρ) :
    FailsOnly Q (LedgerM.decide s d : LedgerM σ α ρ ω Unit) := by
  rintro ⟨l, c⟩ e failed
  cases held : l.decision? s with
  | none =>
    rw [decide_of_vacant d held] at failed
    cases failed
  | some d' =>
    rw [decide_of_stored d held] at failed
    cases failed
    exact already

theorem FailsOnly.bind {m : LedgerM σ α ρ ω β} {f : β → LedgerM σ α ρ ω γ}
    (first : FailsOnly Q m) (second : ∀ x, FailsOnly Q (f x)) : FailsOnly Q (m >>= f) := by
  intro w e failed
  have before := first w
  rcases ran : m w with ⟨result, w'⟩
  rw [ran] at before
  cases result with
  | error e' =>
    rw [bind_of_error ran] at failed
    cases failed
    exact before _ rfl
  | ok x =>
    rw [bind_of_ok ran] at failed
    exact second x w' e failed

theorem failsOnly_forEach {step : β → LedgerM σ α ρ ω Unit} {xs : List β}
    (each : ∀ x ∈ xs, FailsOnly Q (step x)) : FailsOnly Q (forEach step xs) := by
  induction xs with
  | nil => exact failsOnly_pure ()
  | cons x rest ih =>
    refine (each x List.mem_cons_self).bind fun _ => ?_
    exact ih fun y member => each y (List.mem_cons_of_mem x member)

theorem failsOnly_evaluateAll {evaluate : α → LedgerM σ α ρ ω ρ} {as : List α}
    (each : ∀ a ∈ as, FailsOnly Q (evaluate a)) : FailsOnly Q (evaluateAll evaluate as) := by
  induction as with
  | nil => exact failsOnly_pure []
  | cons a rest ih =>
    refine (each a List.mem_cons_self).bind fun _ => ?_
    refine (ih fun b member => each b (List.mem_cons_of_mem a member)).bind fun _ => ?_
    exact failsOnly_pure _

variable [Scalar ρ] {P : Problem σ α ρ} {successor : σ → LedgerM σ α ρ ω ρ} {s : σ} {a : α}

theorem failsOnly_addTerms {fs : List σ} (successors : ∀ f ∈ fs, FailsOnly Q (successor f))
    (discount sum : ρ) (ws : List ρ) :
    FailsOnly Q (addTerms P successor discount s a sum fs ws) := by
  induction fs generalizing sum ws with
  | nil => exact failsOnly_pure sum
  | cons f rest ih =>
    cases ws with
    | nil => exact failsOnly_pure sum
    | cons w others =>
      refine (successors f List.mem_cons_self).bind fun _ => (failsOnly_onLedger _).bind fun _ => ?_
      exact ih (fun g member => successors g (List.mem_cons_of_mem f member)) _ others

theorem failsOnly_expectedValue {outcomes : List σ}
    (weighed : ∀ e, P.weights s a outcomes = .error e → Q e)
    (successors : ∀ f ∈ outcomes, FailsOnly Q (successor f)) :
    FailsOnly Q (expectedValue P (pure outcomes) successor s a) := by
  rw [expectedValue]
  refine (failsOnly_query (by rintro l e ⟨⟩)).bind fun held => ?_
  cases held with
  | some x => exact failsOnly_pure x
  | none =>
    rw [pure_bind]
    refine (failsOnly_ofExcept weighed).bind fun ws => ?_
    refine (failsOnly_query (by rintro l e ⟨⟩)).bind fun discount => ?_
    exact (failsOnly_addTerms successors discount 0 ws).bind fun _ => failsOnly_onLedger _

end LedgerM

end Horizon
