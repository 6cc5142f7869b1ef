import Mathlib.Logic.Relation
import Horizon.Proofs.WriteOnce

/-! What computations on a ledger do, and what is true when they succeed.

`Fulfils R before m after` says that `m`, begun where `before` holds, ends in a world that `R`
relates to the first one, and that `after` holds there if `m` succeeds. With a relation that is
reflexive and transitive this is closed under sequencing. The loops that values are made of ask for
one step only. For the outcomes of a pair, which of them have been gone through is told by an index,
the latest first.
-/

set_option autoImplicit false

namespace Horizon.LedgerM

variable {σ α ρ ω β γ : Type} [DecidableEq σ] [DecidableEq α]
  {R : Ledger σ α ρ × ω → Ledger σ α ρ × ω → Prop} {before before' : Ledger σ α ρ × ω → Prop}

/-- Wherever `before` holds, `m` moves along `R`, and `after` holds when it succeeds. -/
def Fulfils (R : Ledger σ α ρ × ω → Ledger σ α ρ × ω → Prop) (before : Ledger σ α ρ × ω → Prop)
    (m : LedgerM σ α ρ ω β) (after : β → Ledger σ α ρ × ω → Prop) : Prop :=
  ∀ w, before w → R w (m w).2 ∧ ∀ x, (m w).1 = .ok x → after x (m w).2

section Sequencing

variable {m : LedgerM σ α ρ ω β} {after after' : β → Ledger σ α ρ × ω → Prop}

theorem Fulfils.imp (fulfils : Fulfils R before m after) (first : ∀ w, before' w → before w)
    (last : ∀ x w, after x w → after' x w) : Fulfils R before' m after' := by
  intro w held
  obtain ⟨moved, given⟩ := fulfils w (first w held)
  exact ⟨moved, fun x done => last x _ (given x done)⟩

theorem Fulfils.keeping {S : Ledger σ α ρ × ω → Prop} (stable : ∀ w w', R w w' → S w → S w')
    (fulfils : Fulfils R before m after) :
    Fulfils R (fun w => before w ∧ S w) m fun x w => after x w ∧ S w := by
  rintro w ⟨held, kept⟩
  obtain ⟨moved, given⟩ := fulfils w held
  exact ⟨moved, fun x done => ⟨given x done, stable w _ moved kept⟩⟩

theorem Fulfils.along {R' : Ledger σ α ρ × ω → Ledger σ α ρ × ω → Prop}
    (fulfils : Fulfils R before m after) (implies : ∀ w w', R w w' → R' w w') :
    Fulfils R' before m after := by
  intro w held
  obtain ⟨moved, given⟩ := fulfils w held
  exact ⟨implies w _ moved, given⟩

theorem fulfils_onLedger {f : Ledger σ α ρ → β × Ledger σ α ρ}
    (moves : ∀ l c, before (l, c) → R (l, c) ((f l).2, c) ∧ after (f l).1 ((f l).2, c)) :
    Fulfils R before (onLedger f) after := by
  rintro ⟨l, c⟩ held
  obtain ⟨moved, reached⟩ := moves l c held
  refine ⟨moved, fun x done => ?_⟩
  cases done
  exact reached

theorem fulfils_onContext {f : ω → ω} {after : Ledger σ α ρ × ω → Prop}
    (moves : ∀ l c, before (l, c) → R (l, c) (l, f c) ∧ after (l, f c)) :
    Fulfils R before (onContext f) fun _ => after := by
  rintro ⟨l, c⟩ held
  obtain ⟨moved, reached⟩ := moves l c held
  exact ⟨moved, fun _ _ => reached⟩

variable [IsPreorder _ R]

theorem fulfils_pure {x : β} (held : ∀ w, before w → after x w) :
    Fulfils R before (pure x) after := by
  refine fun w here => ⟨refl w, fun y done => ?_⟩
  cases done
  exact held w here

theorem fulfils_ofExcept (e : Except (SolveError σ α) β) :
    Fulfils R before (ofExcept e) fun x w => before w ∧ e = .ok x :=
  fun w here => ⟨refl w, fun _ done => ⟨here, done⟩⟩

theorem fulfils_query (f : Ledger σ α ρ → Except (SolveError σ α) β) :
    Fulfils R before (query f) fun x w => before w ∧ f w.1 = .ok x :=
  fun w here => ⟨refl w, fun _ done => ⟨here, done⟩⟩

theorem Fulfils.bind {f : β → LedgerM σ α ρ ω γ} {last : γ → Ledger σ α ρ × ω → Prop}
    (first : Fulfils R before m after) (second : ∀ x, Fulfils R (after x) (f x) last) :
    Fulfils R before (m >>= f) last := by
  intro w held
  obtain ⟨moved, given⟩ := first w held
  rcases ran : m w with ⟨result, w'⟩
  rw [ran] at moved given
  cases result with
  | error e =>
    rw [bind_of_error ran]
    exact ⟨moved, fun _ done => by cases done⟩
  | ok x =>
    rw [bind_of_ok ran]
    obtain ⟨moved', given'⟩ := second x w' (given x rfl)
    exact ⟨IsTrans.trans _ _ _ moved moved', given'⟩

end Sequencing

section Loops

variable [IsPreorder _ R]

variable {J : Ledger σ α ρ × ω → Prop}

/-- What each step establishes and no move takes back is true of all elements at the end. -/
theorem fulfils_forEach {Q : γ → Ledger σ α ρ × ω → Prop} {step : γ → LedgerM σ α ρ ω Unit}
    {xs : List γ} (stable : ∀ x w w', R w w' → Q x w → Q x w')
    (each : ∀ x ∈ xs, Fulfils R J (step x) fun _ w => J w ∧ Q x w) :
    Fulfils R J (forEach step xs) fun _ w => J w ∧ ∀ x ∈ xs, Q x w := by
  induction xs with
  | nil => exact fulfils_pure fun _ held => ⟨held, List.forall_mem_nil _⟩
  | cons x rest ih =>
    have later := ih fun y member => each y (List.mem_cons_of_mem x member)
    refine (each x List.mem_cons_self).bind fun _ => ?_
    refine (later.keeping (stable x)).imp (fun _ => id) ?_
    rintro _ w ⟨⟨held, others⟩, first⟩
    exact ⟨held, List.forall_mem_cons.2 ⟨first, others⟩⟩

theorem fulfils_forEach_of_invariant {step : γ → LedgerM σ α ρ ω Unit} {xs : List γ}
    (each : ∀ x ∈ xs, Fulfils R J (step x) fun _ => J) :
    Fulfils R J (forEach step xs) fun _ => J := by
  induction xs with
  | nil => exact fulfils_pure fun _ held => held
  | cons x rest ih =>
    refine (each x List.mem_cons_self).bind fun _ => ?_
    exact ih fun y member => each y (List.mem_cons_of_mem x member)

theorem fulfils_evaluateAll {Q : α → Ledger σ α ρ × ω → Prop} {evaluate : α → LedgerM σ α ρ ω ρ}
    {as : List α} (stable : ∀ a w w', R w w' → Q a w → Q a w')
    (each : ∀ a ∈ as, Fulfils R J (evaluate a) fun _ w => J w ∧ Q a w) :
    Fulfils R J (evaluateAll evaluate as) fun _ w => J w ∧ ∀ a ∈ as, Q a w := by
  induction as with
  | nil => exact fulfils_pure fun _ held => ⟨held, List.forall_mem_nil _⟩
  | cons a rest ih =>
    have later := ih fun b member => each b (List.mem_cons_of_mem a member)
    refine (each a List.mem_cons_self).bind fun _ => ?_
    refine Fulfils.bind ((later.keeping (stable a)).imp (fun _ => id) ?_) fun _ =>
      fulfils_pure fun _ held => held
    rintro _ w ⟨⟨held, others⟩, first⟩
    exact ⟨held, List.forall_mem_cons.2 ⟨first, others⟩⟩

theorem fulfils_evaluateAll_of_invariant {evaluate : α → LedgerM σ α ρ ω ρ} {as : List α}
    (each : ∀ a ∈ as, Fulfils R J (evaluate a) fun _ => J) :
    Fulfils R J (evaluateAll evaluate as) fun _ => J := by
  induction as with
  | nil => exact fulfils_pure fun _ held => held
  | cons a rest ih =>
    have later := ih fun b member => each b (List.mem_cons_of_mem a member)
    refine (each a List.mem_cons_self).bind fun _ => ?_
    exact later.bind fun _ => fulfils_pure fun _ held => held

variable [Scalar ρ] {P : Problem σ α ρ} {successor : σ → LedgerM σ α ρ ω ρ} {s : σ} {a : α}
  {I : List σ → Ledger σ α ρ × ω → Prop} {finals done : List σ}

def collected (s : σ) (a : α) (f : σ) (w : Ledger σ α ρ × ω) : Ledger σ α ρ × ω :=
  (w.1.collect s a f, w.2)

theorem fulfils_addTerms {discount sum : ρ} {ws : List ρ} (weighed : ws.length = finals.length)
    (each : ∀ done, ∀ f ∈ finals, Fulfils R (I done) (successor f) fun _ w =>
      R w (collected s a f w) ∧ I (f :: done) (collected s a f w)) :
    Fulfils R (I done) (addTerms P successor discount s a sum finals ws)
      fun _ => I (finals.reverse ++ done) := by
  induction finals generalizing done sum ws with
  | nil => exact fulfils_pure fun _ held => held
  | cons f rest ih =>
    obtain _ | ⟨w, others⟩ := ws
    · cases weighed
    · refine (each done f List.mem_cons_self).bind fun future => ?_
      have collects : Fulfils R
          (fun w => R w (collected s a f w) ∧ I (f :: done) (collected s a f w))
          (onLedger fun l => ((), l.collect s a f)) fun _ => I (f :: done) :=
        fulfils_onLedger fun _ _ held => held
      refine collects.bind fun _ => ?_
      rw [List.reverse_cons, List.append_assoc]
      exact ih (Nat.succ.inj weighed) fun done g member =>
        each done g (List.mem_cons_of_mem f member)

/-- A value is there already, or all outcomes are gone through and then it is entered. -/
theorem fulfils_expectedValue {after : Ledger σ α ρ × ω → Prop}
    (stored : ∀ w, before w → (w.1.expected? s a).isSome = true → after w)
    (vacant : ∀ w, before w → w.1.expected? s a = none → I [] w)
    (each : ∀ done, ∀ f ∈ finals, Fulfils R (I done) (successor f) fun _ w =>
      R w (collected s a f w) ∧ I (f :: done) (collected s a f w))
    (enter : ∀ l c x, I finals.reverse (l, c) → R (l, c) ((l.enterExpected s a x).2, c) ∧
      after ((l.enterExpected s a x).2, c)) :
    Fulfils R before (expectedValue P (pure finals) successor s a) fun _ => after := by
  rintro ⟨l, c⟩ held
  cases entered : l.expected? s a with
  | some x =>
    rw [expectedValue_of_stored entered]
    exact ⟨Std.Refl.refl _, fun _ _ => stored (l, c) held (congrArg Option.isSome entered)⟩
  | none =>
    rw [expectedValue_of_vacant entered]
    have worked : Fulfils R (I [])
        (do
          let weights ← ofExcept (P.weights s a finals)
          let discount ← query fun l => .ok l.discount
          let value ← addTerms P successor discount s a 0 finals weights
          onLedger fun l => l.enterExpected s a value)
        fun _ => after := by
      refine (fulfils_ofExcept _).bind fun ws => ?_
      by_cases weighed : P.weights s a finals = .ok ws
      · have length : ws.length = finals.length := by
          rw [(Problem.weights_eq_ok_iff.1 weighed).2, List.length_map]
        refine ((fulfils_query _).imp (fun _ held => held.1) fun _ _ held => held.1).bind
          fun discount => ?_
        refine (fulfils_addTerms length each).bind fun value => fulfils_onLedger ?_
        rw [List.append_nil]
        exact fun l c held => enter l c value held
      · exact fun _ held => absurd held.2 weighed
    exact worked (l, c) (vacant (l, c) held entered)

end Loops

end Horizon.LedgerM
