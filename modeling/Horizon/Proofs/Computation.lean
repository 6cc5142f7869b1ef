import Horizon.Proofs.Bellman

/-! What computations on a ledger give.

`Computes I m result` says that `m` gives `result` wherever the invariant `I` holds, and keeps it.
It is closed under sequencing, so under an invariant that knows the discount (`Steady`) the terms of
an expected value add up to what its outcomes are worth (`computes_worked`), and one under which
every entry of the ledger is right (`Memo`) makes a computation that looks entries up give what
working them out would give (`computes_expectedValue`).
-/

set_option autoImplicit false

namespace Horizon

variable {σ α ρ : Type} [DecidableEq σ] [DecidableEq α]

namespace Ledger

theorem decision?_empty [Hashable σ] [Hashable α] (storage : StorageConfig) (discount : ρ) (s : σ) :
    (empty storage discount : Ledger σ α ρ).decision? s = none := by
  rw [decision?, empty, Store.get?_ofConfig]

theorem expected?_empty [Hashable σ] [Hashable α] (storage : StorageConfig) (discount : ρ) (s : σ)
    (a : α) : (empty storage discount : Ledger σ α ρ).expected? s a = none := by
  rw [expected?, empty, Store.get?_ofConfig]

theorem discount_enterExpected (l : Ledger σ α ρ) (s : σ) (a : α) (x : ρ) :
    (l.enterExpected s a x).2.discount = l.discount := by
  unfold enterExpected
  split <;> rfl

theorem discount_publish (l : Ledger σ α ρ) (s : σ) (d : Decision α ρ) :
    (l.publish s d).2.discount = l.discount := by
  unfold publish
  split <;> rfl

-- An entry is an old one or the new one; which of them, when both are there, does not matter to an
-- invariant that speaks about single entries.
theorem expected?_or_of_enterExpected {l : Ledger σ α ρ} {s s' : σ} {a a' : α} {x y : ρ}
    (entered : (l.enterExpected s a x).2.expected? s' a' = some y) :
    l.expected? s' a' = some y ∨ (s, a) = (s', a') ∧ x = y := by
  rw [expected?_enterExpected] at entered
  split at entered
  · next same =>
    cases same
    cases held : l.expected? s a with
    | some z =>
      rw [held] at entered
      exact .inl entered
    | none =>
      rw [held] at entered
      exact .inr ⟨rfl, Option.some.inj entered⟩
  · exact .inl entered

theorem decision?_or_of_publish {l : Ledger σ α ρ} {s s' : σ} {d d' : Decision α ρ}
    (decided : (l.publish s d).2.decision? s' = some d') :
    l.decision? s' = some d' ∨ s = s' ∧ d = d' := by
  rw [decision?_publish] at decided
  split at decided
  · next same =>
    subst same
    cases held : l.decision? s with
    | some z =>
      rw [held] at decided
      exact .inl decided
    | none =>
      rw [held] at decided
      exact .inr ⟨rfl, Option.some.inj decided⟩
  · exact .inl decided

end Ledger

namespace LedgerM

variable {ω β γ : Type}

theorem bind_of_ok {m : LedgerM σ α ρ ω β} {f : β → LedgerM σ α ρ ω γ} {w w' : Ledger σ α ρ × ω}
    {x : β} (done : m w = (.ok x, w')) : (m >>= f) w = f x w' := by
  change (match m w with
    | (r, w') => ExceptT.bindCont f r w') = f x w'
  rw [done]
  rfl

theorem bind_of_error {m : LedgerM σ α ρ ω β} {f : β → LedgerM σ α ρ ω γ}
    {w w' : Ledger σ α ρ × ω} {e : SolveError σ α} (failed : m w = (.error e, w')) :
    (m >>= f) w = (.error e, w') := by
  change (match m w with
    | (r, w') => ExceptT.bindCont f r w') = (.error e, w')
  rw [failed]
  rfl

theorem query_bind {q : Ledger σ α ρ → β} {f : β → LedgerM σ α ρ ω γ} {l : Ledger σ α ρ} {c : ω}
    {x : β} (answered : q l = x) :
    (query (fun l => .ok (q l)) >>= f) (l, c) = f x (l, c) := by
  subst answered
  rfl

theorem exists_of_bind {m : LedgerM σ α ρ ω β} {f : β → LedgerM σ α ρ ω γ}
    {w w' : Ledger σ α ρ × ω} {y : γ} (done : (m >>= f) w = (.ok y, w')) :
    ∃ x w'', m w = (.ok x, w'') ∧ f x w'' = (.ok y, w') := by
  rcases first : m w with ⟨result, w''⟩
  cases result with
  | error e =>
    rw [bind_of_error first] at done
    cases done
  | ok x =>
    rw [bind_of_ok first] at done
    exact ⟨x, w'', rfl, done⟩

theorem decide_of_vacant {l : Ledger σ α ρ} {c : ω} {s : σ} (d : Decision α ρ)
    (vacant : l.decision? s = none) :
    LedgerM.decide s d (l, c) = (.ok (), (l.publish s d).2, c) := by
  rw [LedgerM.decide, Ledger.decide, Ledger.publish, vacant]

theorem decide_of_stored {l : Ledger σ α ρ} {c : ω} {s : σ} (d : Decision α ρ)
    {d' : Decision α ρ} (stored : l.decision? s = some d') :
    LedgerM.decide s d (l, c) = (.error (.alreadySolved s), l, c) := by
  rw [LedgerM.decide, Ledger.decide, Ledger.publish, stored]

/-- Wherever `I` holds, `m` gives `result`, and `I` holds again afterwards. -/
def Computes (I : Ledger σ α ρ × ω → Prop) (m : LedgerM σ α ρ ω β)
    (result : Except (SolveError σ α) β) : Prop :=
  ∀ w, I w → (m w).1 = result ∧ I (m w).2

section Sequencing

variable {I : Ledger σ α ρ × ω → Prop}

theorem computes_pure (x : β) : Computes I (pure x) (.ok x) :=
  fun _ held => ⟨rfl, held⟩

theorem computes_ofExcept (e : Except (SolveError σ α) β) : Computes I (ofExcept e) e :=
  fun _ held => ⟨rfl, held⟩

theorem computes_query {f : Ledger σ α ρ → Except (SolveError σ α) β}
    {result : Except (SolveError σ α) β} (answered : ∀ w, I w → f w.1 = result) :
    Computes I (query f) result :=
  fun w held => ⟨answered w held, held⟩

theorem computes_onContext {f : ω → ω} (kept : ∀ l c, I (l, c) → I (l, f c)) :
    Computes I (onContext f) (.ok ()) :=
  fun (l, c) held => ⟨rfl, kept l c held⟩

theorem Computes.bind {m : LedgerM σ α ρ ω β} {f : β → LedgerM σ α ρ ω γ}
    {result : Except (SolveError σ α) β} {next : β → Except (SolveError σ α) γ}
    (first : Computes I m result)
    (second : ∀ x, result = .ok x → Computes I (f x) (next x)) :
    Computes I (m >>= f) (result >>= next) := by
  intro w held
  obtain ⟨given, kept⟩ := first w held
  rcases ran : m w with ⟨r, w'⟩
  rw [ran] at given kept
  change r = result at given
  subst given
  cases r with
  | error e =>
    rw [bind_of_error ran]
    exact ⟨rfl, kept⟩
  | ok x =>
    rw [bind_of_ok ran]
    exact second x rfl w' kept

theorem Computes.andThen {m : LedgerM σ α ρ ω β} {f : β → LedgerM σ α ρ ω γ} {x : β}
    {result : Except (SolveError σ α) γ} (first : Computes I m (.ok x))
    (second : Computes I (f x) result) : Computes I (m >>= f) result := by
  have both : Computes I (m >>= f) (Except.ok x >>= fun _ => result) :=
    first.bind fun y same => by
      cases same
      exact second
  exact both

theorem computes_evaluateAll {evaluate : α → LedgerM σ α ρ ω ρ}
    {value : α → Except (SolveError σ α) ρ} {as : List α}
    (each : ∀ a ∈ as, Computes I (evaluate a) (value a)) :
    Computes I (evaluateAll evaluate as) (as.mapM fun a => do return (a, ← value a)) := by
  induction as with
  | nil => exact computes_pure []
  | cons a rest ih =>
    have others := ih fun b member => each b (List.mem_cons_of_mem a member)
    rw [List.mapM_cons, bind_assoc]
    refine (each a List.mem_cons_self).bind fun x _ => ?_
    rw [pure_bind]
    exact others.bind fun xs _ => computes_pure _

end Sequencing

theorem computes_decision [Scalar ρ] {I : Ledger σ α ρ × ω → Prop} {P : Problem σ α ρ}
    {config : Config ρ} {kept : σ → α → List σ} {left : Nat} {s : σ}
    {evaluate : α → LedgerM σ α ρ ω ρ}
    (evaluated : ∀ a ∈ P.actions s,
      Computes I (evaluate a) (P.attemptAction config kept left s a)) :
    Computes I
      (do
        let candidates ← evaluateAll evaluate (P.actions s)
        ofExcept (choose config.direction s candidates))
      (P.attempt config kept (left + 1) s) := by
  rw [Problem.attempt_succ]
  exact (computes_evaluateAll evaluated).bind fun _ _ => computes_ofExcept _

structure Steady (I : Ledger σ α ρ × ω → Prop) (discount : ρ) : Prop where
  discount_eq : ∀ w, I w → w.1.discount = discount
  collect : ∀ l c, I (l, c) → ∀ s a f, I (l.collect s a f, c)

namespace Steady

variable {I : Ledger σ α ρ × ω → Prop} {discount : ρ} {s : σ} {a : α} [Scalar ρ]
  {P : Problem σ α ρ} {successor : σ → LedgerM σ α ρ ω ρ} {value : σ → Except (SolveError σ α) ρ}

theorem computes_addTerms (steady : Steady I discount) {finals : List σ} (ws : List ρ) (sum : ρ)
    (successors : ∀ f ∈ finals, Computes I (successor f) (value f)) :
    Computes I (addTerms P successor discount s a sum finals ws)
      (do
        let terms ← (finals.zip ws).mapM fun x => P.term discount value s a x.1 x.2
        return terms.foldl (· + ·) sum) := by
  induction finals generalizing ws sum with
  | nil => exact computes_pure sum
  | cons f rest ih =>
    cases ws with
    | nil => exact computes_pure sum
    | cons w others =>
      -- the sum is threaded through, so the induction keeps it open
      have later := fun sum => ih others sum fun g member =>
        successors g (List.mem_cons_of_mem f member)
      simp only [List.zip_cons_cons, List.mapM_cons, Problem.term, bind_assoc, pure_bind,
        List.foldl_cons, addTerms]
      refine (successors f List.mem_cons_self).bind fun future _ => ?_
      have collected : Computes I
          (onLedger fun l : Ledger σ α ρ => ((), l.collect s a f)) (.ok ()) :=
        fun w held => ⟨rfl, steady.collect w.1 w.2 held s a f⟩
      exact collected.bind fun _ _ => later _

theorem computes_worked (steady : Steady I discount) {finals : List σ}
    (successors : ∀ f ∈ finals, Computes I (successor f) (value f)) :
    Computes I
      (do
        let weights ← ofExcept (P.weights s a finals)
        let discount ← query fun l => .ok l.discount
        addTerms P successor discount s a 0 finals weights)
      (P.appraise discount value s a finals) := by
  refine (computes_ofExcept _).bind fun ws _ => ?_
  have read : Computes I (query fun l : Ledger σ α ρ => .ok l.discount) (.ok discount) :=
    computes_query fun w held => by rw [steady.discount_eq w held]
  have added : Computes I
      (do
        let d ← query fun l => .ok l.discount
        addTerms P successor d s a 0 finals ws)
      (do
        let d ← Except.ok discount
        let terms ← (finals.zip ws).mapM fun x => P.term d value s a x.1 x.2
        return Scalar.total terms) := by
    apply read.bind
    intro d same
    cases same
    exact steady.computes_addTerms ws 0 successors
  exact added

end Steady

/-- An invariant under which the expected values that have been entered are right, and that allows
to enter more of them. -/
structure Memo (I : Ledger σ α ρ × ω → Prop) (discount : ρ) (Worth : σ → α → ρ → Prop) :
    Prop where
  discount_eq : ∀ w, I w → w.1.discount = discount
  faithful : ∀ w, I w → ∀ s a x, w.1.expected? s a = some x → Worth s a x
  enter : ∀ l c, I (l, c) → ∀ s a x, Worth s a x → I ((l.enterExpected s a x).2, c)
  collect : ∀ l c, I (l, c) → ∀ s a f, I (l.collect s a f, c)

namespace Memo

variable {I : Ledger σ α ρ × ω → Prop} {discount : ρ} {Worth : σ → α → ρ → Prop} {s : σ} {a : α}

theorem steady (memo : Memo I discount Worth) : Steady I discount :=
  ⟨memo.discount_eq, memo.collect⟩

theorem computes_enterExpected (memo : Memo I discount Worth) {x : ρ} (worth : Worth s a x)
    (unique : ∀ y, Worth s a y → y = x) :
    Computes I (onLedger fun l => l.enterExpected s a x) (.ok x) := by
  rintro ⟨l, c⟩ held
  refine ⟨?_, memo.enter l c held s a x worth⟩
  change Except.ok (l.enterExpected s a x).1 = .ok x
  rw [Ledger.enterExpected]
  split
  · next y entered => rw [unique y (memo.faithful (l, c) held s a y entered)]
  · rfl

variable [Scalar ρ] {P : Problem σ α ρ} {successor : σ → LedgerM σ α ρ ω ρ}
  {value : σ → Except (SolveError σ α) ρ}

-- Whether the value is looked up or worked out cannot be told from the result: an entry is right
-- by the invariant, and a value that is worked out is entered under it.
theorem computes_expectedValue (memo : Memo I discount Worth) {finals : List σ}
    (worth : ∀ x, Worth s a x ↔ P.appraise discount value s a finals = .ok x)
    (successors : ∀ f ∈ finals, Computes I (successor f) (value f)) :
    Computes I (expectedValue P (pure finals) successor s a)
      (P.appraise discount value s a finals) := by
  rintro ⟨l, c⟩ held
  cases entered : l.expected? s a with
  | some x =>
    have known : P.appraise discount value s a finals = .ok x :=
      (worth x).1 (memo.faithful (l, c) held s a x entered)
    rw [expectedValue, query_bind entered, known]
    exact ⟨rfl, held⟩
  | none =>
    have worked : Computes I
        (do
          let x ← (do
            let weights ← ofExcept (P.weights s a finals)
            let discount ← query fun l => .ok l.discount
            addTerms P successor discount s a 0 finals weights)
          onLedger fun l => l.enterExpected s a x)
        (P.appraise discount value s a finals >>= pure) := by
      refine (memo.steady.computes_worked successors).bind fun x done => ?_
      exact memo.computes_enterExpected ((worth x).2 done) fun y other =>
        Except.ok.inj (((worth y).1 other).symm.trans done)
    rw [bind_pure] at worked
    rw [expectedValue, query_bind entered]
    simp only [bind_assoc] at worked
    exact worked (l, c) held

end Memo

end LedgerM

end Horizon
