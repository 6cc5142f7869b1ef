import Horizon.Proofs.Computation

/-! What has been entered in a ledger stays.

A ledger `Extends` another one when it has all its entries. The operations on a ledger only extend
it, so every computation that is made of them does (`Enters`), whether it succeeds or fails. An
expected value that was given once is looked up from then on, and whatever it would have been worked
out from is not asked again.
-/

set_option autoImplicit false

namespace Horizon

variable {σ α ρ : Type} [DecidableEq σ] [DecidableEq α]

namespace Ledger

structure Extends (l l' : Ledger σ α ρ) : Prop where
  expected : ∀ s a x, l.expected? s a = some x → l'.expected? s a = some x
  decided : ∀ s d, l.decision? s = some d → l'.decision? s = some d

variable {l l' l'' : Ledger σ α ρ}

theorem Extends.refl (l : Ledger σ α ρ) : l.Extends l :=
  ⟨fun _ _ _ => id, fun _ _ => id⟩

theorem Extends.trans (first : l.Extends l') (second : l'.Extends l'') : l.Extends l'' where
  expected s a x held := second.expected s a x (first.expected s a x held)
  decided s d held := second.decided s d (first.decided s d held)

theorem Extends.isSolved {s : σ} (grown : l.Extends l') (solved : l.isSolved s = true) :
    l'.isSolved s = true := by
  obtain ⟨d, stored⟩ := Option.isSome_iff_exists.1 solved
  exact Option.isSome_iff_exists.2 ⟨d, grown.decided s d stored⟩

theorem Extends.isSome_expected {s : σ} {a : α} (grown : l.Extends l')
    (entered : (l.expected? s a).isSome = true) : (l'.expected? s a).isSome = true := by
  obtain ⟨x, stored⟩ := Option.isSome_iff_exists.1 entered
  exact Option.isSome_iff_exists.2 ⟨x, grown.expected s a x stored⟩

theorem extends_enterExpected (l : Ledger σ α ρ) (s : σ) (a : α) (x : ρ) :
    l.Extends (l.enterExpected s a x).2 where
  expected s' a' y held := by
    rw [expected?_enterExpected]
    split
    · next same =>
      cases same
      rw [held]
      rfl
    · exact held
  decided s' d held := (l.decision?_enterExpected s s' a x).trans held

theorem extends_publish (l : Ledger σ α ρ) (s : σ) (d : Decision α ρ) :
    l.Extends (l.publish s d).2 where
  expected s' a x held := (l.expected?_publish s s' a d).trans held
  decided s' d' held := by
    rw [decision?_publish]
    split
    · next same =>
      subst same
      rw [held]
      rfl
    · exact held

theorem extends_collect (l : Ledger σ α ρ) (s : σ) (a : α) (f : σ) :
    l.Extends (l.collect s a f) :=
  ⟨fun _ _ _ => id, fun _ _ => id⟩

-- The value that entering gives is the one that is there afterwards, new or not.
theorem expected?_enterExpected_self (l : Ledger σ α ρ) (s : σ) (a : α) (x : ρ) :
    (l.enterExpected s a x).2.expected? s a = some (l.enterExpected s a x).1 := by
  rw [expected?_enterExpected, if_pos rfl, enterExpected]
  cases held : l.expected? s a <;> rfl

theorem isSome_enterExpected (l : Ledger σ α ρ) (s : σ) (a : α) (x : ρ) :
    ((l.enterExpected s a x).2.expected? s a).isSome = true := by
  rw [expected?_enterExpected_self]
  rfl

theorem isSome_or_of_enterExpected {s s' : σ} {a a' : α} {x : ρ}
    (entered : ((l.enterExpected s a x).2.expected? s' a').isSome = true) :
    (l.expected? s' a').isSome = true ∨ (s, a) = (s', a') := by
  obtain ⟨y, entered⟩ := Option.isSome_iff_exists.1 entered
  rcases expected?_or_of_enterExpected entered with old | ⟨same, -⟩
  · exact .inl (Option.isSome_iff_exists.2 ⟨y, old⟩)
  · exact .inr same

theorem isSolved_publish (l : Ledger σ α ρ) (s : σ) (d : Decision α ρ) :
    (l.publish s d).2.isSolved s = true := by
  rw [isSolved, decision?_publish, if_pos rfl]
  cases l.decision? s <;> rfl

theorem isSolved_or_of_publish {s s' : σ} {d : Decision α ρ}
    (solved : (l.publish s d).2.isSolved s' = true) : l.isSolved s' = true ∨ s = s' := by
  obtain ⟨d', stored⟩ := Option.isSome_iff_exists.1 solved
  rcases decision?_or_of_publish stored with old | ⟨same, -⟩
  · exact .inl (Option.isSome_iff_exists.2 ⟨d', old⟩)
  · exact .inr same

theorem evaluations_enterExpected {s : σ} {a : α} (vacant : l.expected? s a = none) (x : ρ) :
    (l.enterExpected s a x).2.evaluations = l.evaluations + 1 := by
  rw [enterExpected, vacant]

theorem solvedCount_enterExpected (l : Ledger σ α ρ) (s : σ) (a : α) (x : ρ) :
    (l.enterExpected s a x).2.solvedCount = l.solvedCount := by
  unfold enterExpected
  split <;> rfl

theorem evaluations_publish (l : Ledger σ α ρ) (s : σ) (d : Decision α ρ) :
    (l.publish s d).2.evaluations = l.evaluations := by
  unfold publish
  split <;> rfl

theorem solvedCount_publish {s : σ} (vacant : l.decision? s = none) (d : Decision α ρ) :
    (l.publish s d).2.solvedCount = l.solvedCount + 1 := by
  have absent : l.decided.contains s = false := congrArg Option.isSome vacant
  have grown := l.decided.size_insertNew s d
  rw [absent] at grown
  rw [publish, vacant]
  exact grown

end Ledger

namespace LedgerM

variable {ω β γ : Type}

/-- Whatever `m` comes to, what was in the ledger before is there afterwards. -/
def Enters (m : LedgerM σ α ρ ω β) : Prop :=
  ∀ w : Ledger σ α ρ × ω, w.1.Extends (m w).2.1

theorem enters_pure (x : β) : Enters (pure x : LedgerM σ α ρ ω β) :=
  fun w => .refl w.1

theorem enters_ofExcept (e : Except (SolveError σ α) β) : Enters (ofExcept e : LedgerM σ α ρ ω β) :=
  fun w => .refl w.1

theorem enters_query (f : Ledger σ α ρ → Except (SolveError σ α) β) :
    Enters (query f : LedgerM σ α ρ ω β) :=
  fun w => .refl w.1

theorem enters_onContext (f : ω → ω) : Enters (onContext f : LedgerM σ α ρ ω Unit) :=
  fun w => .refl w.1

theorem enters_decide (s : σ) (d : Decision α ρ) :
    Enters (LedgerM.decide s d : LedgerM σ α ρ ω Unit) := by
  rintro ⟨l, c⟩
  cases held : l.decision? s with
  | none =>
    rw [decide_of_vacant d held]
    exact l.extends_publish s d
  | some d' =>
    rw [decide_of_stored d held]
    exact .refl l

theorem Enters.bind {m : LedgerM σ α ρ ω β} {f : β → LedgerM σ α ρ ω γ} (first : Enters m)
    (second : ∀ x, Enters (f x)) : Enters (m >>= f) := by
  intro w
  have before := first w
  rcases ran : m w with ⟨result, w'⟩
  rw [ran] at before
  cases result with
  | error e =>
    rw [bind_of_error ran]
    exact before
  | ok x =>
    rw [bind_of_ok ran]
    exact before.trans (second x w')

theorem enters_forEach {step : β → LedgerM σ α ρ ω Unit} (xs : List β)
    (each : ∀ x, Enters (step x)) : Enters (forEach step xs) := by
  induction xs with
  | nil => exact enters_pure ()
  | cons x rest ih => exact (each x).bind fun _ => ih

theorem enters_evaluateAll {evaluate : α → LedgerM σ α ρ ω ρ} (as : List α)
    (each : ∀ a, Enters (evaluate a)) : Enters (evaluateAll evaluate as) := by
  induction as with
  | nil => exact enters_pure []
  | cons a rest ih => exact (each a).bind fun _ => ih.bind fun _ => enters_pure _

variable [Scalar ρ] {P : Problem σ α ρ} {finals : LedgerM σ α ρ ω (List σ)}
  {successor : σ → LedgerM σ α ρ ω ρ} {s : σ} {a : α}

theorem enters_addTerms (successors : ∀ f, Enters (successor f)) (discount sum : ρ)
    (fs : List σ) (ws : List ρ) : Enters (addTerms P successor discount s a sum fs ws) := by
  induction fs generalizing sum ws with
  | nil => exact enters_pure sum
  | cons f rest ih =>
    cases ws with
    | nil => exact enters_pure sum
    | cons w others =>
      have collected : Enters (onLedger fun l : Ledger σ α ρ => ((), l.collect s a f) :
          LedgerM σ α ρ ω Unit) := fun w => w.1.extends_collect s a f
      exact (successors f).bind fun _ => collected.bind fun _ => ih _ others

theorem enters_expectedValue (listed : Enters finals) (successors : ∀ f, Enters (successor f)) :
    Enters (expectedValue P finals successor s a) := by
  refine (enters_query _).bind fun held => ?_
  cases held with
  | some x => exact enters_pure x
  | none =>
    refine listed.bind fun outcomes => (enters_ofExcept _).bind fun weights => ?_
    refine (enters_query _).bind fun discount => ?_
    refine (enters_addTerms successors discount 0 outcomes weights).bind fun x => ?_
    exact fun w => w.1.extends_enterExpected s a x

-- Neither the outcomes nor their values are asked for.
theorem expectedValue_of_stored {l : Ledger σ α ρ} {x : ρ} (stored : l.expected? s a = some x)
    (c : ω) : expectedValue P finals successor s a (l, c) = (.ok x, l, c) := by
  rw [expectedValue, query_bind stored]
  rfl

theorem expectedValue_of_vacant {l : Ledger σ α ρ} (vacant : l.expected? s a = none) (c : ω) :
    expectedValue P finals successor s a (l, c) =
      (do
        let outcomes ← finals
        let weights ← ofExcept (P.weights s a outcomes)
        let discount ← query fun l => .ok l.discount
        let value ← addTerms P successor discount s a 0 outcomes weights
        onLedger fun l => l.enterExpected s a value) (l, c) := by
  rw [expectedValue, query_bind vacant]

-- A pair without a value is worked out from what its outcomes are worth, as long as that does not
-- enter one.
theorem Steady.expectedValue_eq_appraise {I : Ledger σ α ρ × ω → Prop} {discount : ρ}
    (steady : Steady I discount) (vacant : ∀ w, I w → w.1.expected? s a = none) {fs : List σ}
    {value : σ → Except (SolveError σ α) ρ} (listed : Computes I finals (.ok fs))
    (successors : ∀ f ∈ fs, Computes I (successor f) (value f)) {w : Ledger σ α ρ × ω}
    (held : I w) :
    (expectedValue P finals successor s a w).1 = P.appraise discount value s a fs := by
  obtain ⟨l, c⟩ := w
  let work : LedgerM σ α ρ ω ρ := do
    let outcomes ← finals
    let weights ← ofExcept (P.weights s a outcomes)
    let discount ← query fun l => .ok l.discount
    addTerms P successor discount s a 0 outcomes weights
  have computed : Computes I work (P.appraise discount value s a fs) :=
    listed.andThen (steady.computes_worked successors)
  have worked : expectedValue P finals successor s a (l, c) =
      (work >>= fun x => onLedger fun l => l.enterExpected s a x) (l, c) := by
    rw [expectedValue_of_vacant (vacant (l, c) held)]
    simp only [work, bind_assoc]
  obtain ⟨given, still⟩ := computed (l, c) held
  rcases ran : work (l, c) with ⟨result, l', c'⟩
  rw [ran] at given still
  rw [worked, ← given]
  cases result with
  | error e => rw [bind_of_error ran]
  | ok x =>
    have entered : (l'.enterExpected s a x).1 = x := by
      rw [Ledger.enterExpected, vacant (l', c') still]
    rw [bind_of_ok ran]
    exact congrArg Except.ok entered

theorem expectedValue_eq_appraise {l : Ledger σ α ρ} (vacant : l.expected? s a = none) (c : ω)
    (fs : List σ) (value : σ → Except (SolveError σ α) ρ) :
    (expectedValue P (pure fs) (fun f => LedgerM.ofExcept (value f)) s a (l, c)).1 =
      P.appraise l.discount value s a fs := by
  let I : Ledger σ α ρ × ω → Prop :=
    fun w => w.1.discount = l.discount ∧ w.1.expected? s a = none
  have steady : Steady I l.discount := ⟨fun _ => And.left, fun _ _ held _ _ _ => held⟩
  exact steady.expectedValue_eq_appraise (fun _ => And.right) (computes_pure fs)
    (fun f _ => computes_ofExcept (value f)) (w := (l, c)) ⟨rfl, vacant⟩

theorem expected?_of_expectedValue {w w' : Ledger σ α ρ × ω} {x : ρ}
    (given : expectedValue P finals successor s a w = (.ok x, w')) :
    w'.1.expected? s a = some x := by
  obtain ⟨l, c⟩ := w
  cases held : l.expected? s a with
  | some y =>
    rw [expectedValue_of_stored held] at given
    cases given
    exact held
  | none =>
    rw [expectedValue_of_vacant held] at given
    obtain ⟨outcomes, w₁, -, given⟩ := exists_of_bind given
    obtain ⟨weights, w₂, -, given⟩ := exists_of_bind given
    obtain ⟨discount, w₃, -, given⟩ := exists_of_bind given
    obtain ⟨y, ⟨l', c'⟩, -, given⟩ := exists_of_bind given
    cases given
    exact l'.expected?_enterExpected_self s a y

end LedgerM

end Horizon
