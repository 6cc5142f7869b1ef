import Mathlib.Algebra.Order.Field.Rat
import Horizon.Proofs.Computation
import Horizon.Proofs.Shape

/-! Values of the other sign, looked at in the other direction.

Negating all values of a problem turns every comparison around and goes through sums and products
with weights, so a computation on a ledger whose values are negated `Mirrors` the one on the ledger
itself, when the direction is opposed. This is closed under everything that recursions are composed
of. The numbers need no order for it: those that may be `RatNaN.nan` compare false both ways.
-/

set_option autoImplicit false

namespace Horizon

/-- Numbers with a sign. Negation goes through sums and products, turns comparisons around, and
makes no number of what is none. -/
class Scalar.Signed (ρ : Type) [Scalar ρ] extends Neg ρ where
  neg_zero : -(0 : ρ) = 0
  neg_add : ∀ x y : ρ, -(x + y) = -x + -y
  mul_neg : ∀ x y : ρ, x * -y = -(x * y)
  lt_neg : ∀ x y : ρ, Scalar.lt (-x) (-y) = Scalar.lt y x
  isNaN_neg : ∀ x : ρ, Scalar.isNaN (-x) = Scalar.isNaN x

/-- A rational number, or the result of an operation that has none. -/
inductive RatNaN where
  | rat (x : ℚ)
  | nan
  deriving DecidableEq

namespace RatNaN

def map₂ (f : ℚ → ℚ → ℚ) : RatNaN → RatNaN → RatNaN
  | rat x, rat y => rat (f x y)
  | _, _ => nan

def compare₂ (r : ℚ → ℚ → Bool) : RatNaN → RatNaN → Bool
  | rat x, rat y => r x y
  | _, _ => false

def isNumber : RatNaN → Bool
  | rat _ => true
  | nan => false

def divide : RatNaN → RatNaN → RatNaN
  | rat x, rat y => if y = 0 then nan else rat (x / y)
  | _, _ => nan

def negate : RatNaN → RatNaN
  | rat x => rat (-x)
  | nan => nan

instance : Scalar RatNaN where
  zero := rat 0
  one := rat 1
  add := map₂ (· + ·)
  sub := map₂ (· - ·)
  mul := map₂ (· * ·)
  div := divide
  lt := compare₂ fun x y => decide (x < y)
  le := compare₂ fun x y => decide (x ≤ y)
  isFinite := isNumber
  isNaN x := !x.isNumber
  ofInt n := rat n

instance : Scalar.Signed RatNaN where
  neg := negate
  neg_zero := congrArg rat neg_zero
  neg_add x y := by
    cases x with
    | nan => rfl
    | rat x =>
      cases y with
      | nan => rfl
      | rat y => exact congrArg rat (neg_add x y)
  mul_neg x y := by
    cases x with
    | nan => rfl
    | rat x =>
      cases y with
      | nan => rfl
      | rat y => exact congrArg rat (mul_neg x y)
  lt_neg x y := by
    cases x with
    | nan => cases y <;> rfl
    | rat x =>
      cases y with
      | nan => rfl
      | rat y => exact decide_eq_decide.2 neg_lt_neg_iff
  isNaN_neg x := by cases x <;> rfl

end RatNaN

variable {σ α ρ : Type} [Scalar ρ] [Scalar.Signed ρ]

def Direction.opposite : Direction → Direction
  | .minimize => .maximize
  | .maximize => .minimize

theorem Direction.improves_opposite (direction : Direction) (x y : ρ) :
    direction.opposite.improves (-x) (-y) = direction.improves x y := by
  cases direction <;> exact Scalar.Signed.lt_neg _ _

def Problem.negated (P : Problem σ α ρ) : Problem σ α ρ :=
  { P with
    immediate := fun s a f => -P.immediate s a f
    terminal := fun s => -P.terminal s }

theorem Problem.sameShape_negated (P : Problem σ α ρ) : P.SameShape P.negated :=
  ⟨rfl, rfl, rfl, rfl, rfl, rfl⟩

def Config.opposed (config : Config ρ) : Config ρ :=
  { config with direction := config.direction.opposite }

def Decision.negated (d : Decision α ρ) : Decision α ρ :=
  ⟨-d.value, d.action⟩

def negateAll (candidates : List (α × ρ)) : List (α × ρ) :=
  candidates.map fun c => (c.1, -c.2)

namespace Champion

def negated (c : Champion α ρ) : Champion α ρ :=
  ⟨c.direction.opposite, c.best.map fun held => (held.1, -held.2)⟩

theorem offer_negated (c : Champion α ρ) (a : α) (x : ρ) :
    c.negated.offer a (-x) = ((c.offer a x).1, (c.offer a x).2.negated) := by
  obtain ⟨direction, best⟩ := c
  unfold offer negated
  rw [Scalar.Signed.isNaN_neg]
  split
  · rfl
  · cases best with
    | none => rfl
    | some held =>
      simp only [Option.map_some, direction.improves_opposite]
      split <;> rfl

-- The same candidate wins each time, and the same one is turned away.
theorem offerAll_negated (c : Champion α ρ) (candidates : List (α × ρ)) :
    c.negated.offerAll (negateAll candidates) = (c.offerAll candidates).map negated := by
  induction candidates generalizing c with
  | nil => rfl
  | cons first rest ih =>
    rw [negateAll, List.map_cons, offerAll, offerAll, offer_negated]
    rcases c.offer first.1 first.2 with ⟨verdict, next⟩
    cases verdict with
    | won => exact ih next
    | lost => exact ih next
    | notNumber => rfl

end Champion

theorem LedgerM.choose_negated (direction : Direction) (s : σ) (candidates : List (α × ρ)) :
    choose direction.opposite s (negateAll candidates) =
      (choose direction s candidates).map Decision.negated := by
  have vacant : (Champion.vacant direction.opposite : Champion α ρ) =
      (Champion.vacant direction).negated := rfl
  rw [choose, choose, vacant, Champion.offerAll_negated]
  cases (Champion.vacant direction).offerAll candidates with
  | error a => rfl
  | ok champion =>
    obtain ⟨direction, best⟩ := champion
    cases best <;> rfl

variable [DecidableEq σ] [DecidableEq α] {ω β γ : Type}

structure Ledger.Negates (l l' : Ledger σ α ρ) : Prop where
  expected : ∀ s a, l'.expected? s a = (l.expected? s a).map (- ·)
  decided : ∀ s, l'.decision? s = (l.decision? s).map Decision.negated
  discount_eq : l'.discount = l.discount
  evaluations_eq : l'.evaluations = l.evaluations
  transitions_eq : l'.transitions = l.transitions

namespace Ledger.Negates

variable {l l' : Ledger σ α ρ}

theorem empty [Hashable σ] [Hashable α] (storage : StorageConfig) (discount : ρ) :
    (Ledger.empty storage discount : Ledger σ α ρ).Negates (.empty storage discount) where
  expected s a := by rw [expected?_empty]; rfl
  decided s := by rw [decision?_empty]; rfl
  discount_eq := rfl
  evaluations_eq := rfl
  transitions_eq := rfl

theorem value_eq (negates : l.Negates l') (s : σ) : l'.value s = (l.value s).map (- ·) := by
  rw [value, value, negates.decided]
  cases l.decision? s <;> rfl

theorem action_eq (negates : l.Negates l') (s : σ) : l'.action s = l.action s := by
  rw [action, action, negates.decided]
  cases l.decision? s with
  | none => rfl
  | some d =>
    obtain ⟨x, a⟩ := d
    cases a <;> rfl

theorem enterExpected (negates : l.Negates l') (s : σ) (a : α) (x : ρ) :
    (l'.enterExpected s a (-x)).1 = -(l.enterExpected s a x).1 ∧
      (l.enterExpected s a x).2.Negates (l'.enterExpected s a (-x)).2 := by
  have entered : ∀ s' a', (l'.enterExpected s a (-x)).2.expected? s' a' =
      ((l.enterExpected s a x).2.expected? s' a').map (- ·) := by
    intro s' a'
    rw [expected?_enterExpected, expected?_enterExpected, negates.expected, negates.expected]
    split
    · cases l.expected? s a <;> rfl
    · rfl
  have decided : ∀ s', (l'.enterExpected s a (-x)).2.decision? s' =
      ((l.enterExpected s a x).2.decision? s').map Decision.negated := by
    intro s'
    rw [decision?_enterExpected, decision?_enterExpected, negates.decided]
  have here := negates.expected s a
  unfold Ledger.enterExpected at entered decided ⊢
  cases held : l.expected? s a with
  | some y =>
    rw [held] at here
    simp only [here, Option.map_some, true_and]
    exact negates
  | none =>
    rw [held] at here
    simp only [held, here, Option.map_none, true_and] at entered decided ⊢
    exact ⟨entered, decided, negates.discount_eq, congrArg (· + 1) negates.evaluations_eq,
      negates.transitions_eq⟩

theorem publish (negates : l.Negates l') (s : σ) (d : Decision α ρ) :
    (l'.publish s d.negated).1 = ((l.publish s d).1.1.negated, (l.publish s d).1.2) ∧
      (l.publish s d).2.Negates (l'.publish s d.negated).2 := by
  have entered : ∀ s' a, (l'.publish s d.negated).2.expected? s' a =
      ((l.publish s d).2.expected? s' a).map (- ·) := by
    intro s' a
    rw [expected?_publish, expected?_publish, negates.expected]
  have decided : ∀ s', (l'.publish s d.negated).2.decision? s' =
      ((l.publish s d).2.decision? s').map Decision.negated := by
    intro s'
    rw [decision?_publish, decision?_publish, negates.decided, negates.decided]
    split
    · cases l.decision? s <;> rfl
    · rfl
  have here := negates.decided s
  unfold Ledger.publish at entered decided ⊢
  cases held : l.decision? s with
  | some d' =>
    rw [held] at here
    simp only [here, Option.map_some, true_and]
    exact negates
  | none =>
    rw [held] at here
    simp only [held, here, Option.map_none, true_and] at entered decided ⊢
    exact ⟨entered, decided, negates.discount_eq, negates.evaluations_eq, negates.transitions_eq⟩

theorem decide (negates : l.Negates l') (s : σ) (d : Decision α ρ) :
    (l'.decide s d.negated).1 = (l.decide s d).1 ∧
      (l.decide s d).2.Negates (l'.decide s d.negated).2 := by
  obtain ⟨same, entered⟩ := negates.publish s d
  unfold Ledger.decide
  rcases published : l.publish s d with ⟨⟨stored, isNew⟩, next⟩
  rcases published' : l'.publish s d.negated with ⟨⟨stored', isNew'⟩, next'⟩
  rw [published, published'] at same entered
  cases same
  cases isNew with
  | true => exact ⟨rfl, entered⟩
  | false => exact ⟨rfl, entered⟩

theorem collect (negates : l.Negates l') (s : σ) (a : α) (f : σ) :
    (l.collect s a f).Negates (l'.collect s a f) :=
  ⟨negates.expected, negates.decided, negates.discount_eq, negates.evaluations_eq,
    congrArg ((s, a, f) :: ·) negates.transitions_eq⟩

end Ledger.Negates

namespace LedgerM

/-- On ledgers that are negated and contexts that are equal, the second computation gives what the
first one gives, changed by `g`, and fails with the same error; and it leaves such ledgers and
contexts behind. -/
def Mirrors (g : β → β) (m m' : LedgerM σ α ρ ω β) : Prop :=
  ∀ l l' c, l.Negates l' → (m' (l', c)).1 = (m (l, c)).1.map g ∧
    (m (l, c)).2.1.Negates (m' (l', c)).2.1 ∧ (m' (l', c)).2.2 = (m (l, c)).2.2

section Mirrors

variable {g : β → β} {h : γ → γ}

theorem mirrors_pure (x : β) :
    Mirrors (σ := σ) (α := α) (ρ := ρ) (ω := ω) g (pure x) (pure (g x)) :=
  fun _ _ _ negates => ⟨rfl, negates, rfl⟩

theorem mirrors_ofExcept (e : Except (SolveError σ α) β) :
    Mirrors (ρ := ρ) (ω := ω) g (ofExcept e) (ofExcept (e.map g)) :=
  fun _ _ _ negates => ⟨rfl, negates, rfl⟩

theorem mirrors_choose (direction : Direction) (s : σ) (candidates : List (α × ρ)) :
    Mirrors (ρ := ρ) (ω := ω) Decision.negated (ofExcept (choose direction s candidates))
      (ofExcept (choose direction.opposite s (negateAll candidates))) := by
  rw [choose_negated]
  exact mirrors_ofExcept _

theorem mirrors_query {f f' : Ledger σ α ρ → Except (SolveError σ α) β}
    (answers : ∀ l l', l.Negates l' → f' l' = (f l).map g) :
    Mirrors (ω := ω) g (query f) (query f') :=
  fun l l' _ negates => ⟨answers l l' negates, negates, rfl⟩

theorem mirrors_onLedger {f f' : Ledger σ α ρ → β × Ledger σ α ρ}
    (kept : ∀ l l', l.Negates l' → (f' l').1 = g (f l).1 ∧ (f l).2.Negates (f' l').2) :
    Mirrors (ω := ω) g (onLedger f) (onLedger f') := by
  intro l l' c negates
  obtain ⟨same, next⟩ := kept l l' negates
  exact ⟨congrArg Except.ok same, next, rfl⟩

theorem mirrors_onContext (f : ω → ω) :
    Mirrors (σ := σ) (α := α) (ρ := ρ) id (onContext f) (onContext f) :=
  fun _ _ _ negates => ⟨rfl, negates, rfl⟩

theorem mirrors_decide (s : σ) (d : Decision α ρ) :
    Mirrors (ω := ω) id (LedgerM.decide s d) (.decide s d.negated) := by
  intro l l' c negates
  obtain ⟨same, next⟩ := negates.decide s d
  exact ⟨same.trans (congrFun Except.map_id _).symm, next, rfl⟩

theorem Mirrors.bind {m m' : LedgerM σ α ρ ω β} {f f' : β → LedgerM σ α ρ ω γ}
    (first : Mirrors g m m') (second : ∀ x, Mirrors h (f x) (f' (g x))) :
    Mirrors h (m >>= f) (m' >>= f') := by
  intro l l' c negates
  obtain ⟨same, next, context⟩ := first l l' c negates
  rcases ran : m (l, c) with ⟨result, l₁, c₁⟩
  rcases ran' : m' (l', c) with ⟨result', l₁', c₁'⟩
  rw [ran, ran'] at same next context
  obtain rfl : c₁' = c₁ := context
  cases result with
  | error e =>
    obtain rfl : result' = .error e := same
    rw [bind_of_error ran, bind_of_error ran']
    exact ⟨rfl, next, rfl⟩
  | ok x =>
    obtain rfl : result' = .ok (g x) := same
    rw [bind_of_ok ran, bind_of_ok ran']
    exact second x l₁ l₁' c₁' next

theorem mirrors_forEach {step step' : β → LedgerM σ α ρ ω Unit} (xs : List β)
    (each : ∀ x, Mirrors id (step x) (step' x)) :
    Mirrors id (forEach step xs) (forEach step' xs) := by
  induction xs with
  | nil => exact mirrors_pure ()
  | cons x rest ih => exact (each x).bind fun _ => ih

theorem mirrors_evaluateAll {evaluate evaluate' : α → LedgerM σ α ρ ω ρ} (as : List α)
    (each : ∀ a, Mirrors (- ·) (evaluate a) (evaluate' a)) :
    Mirrors negateAll (evaluateAll evaluate as) (evaluateAll evaluate' as) := by
  induction as with
  | nil => exact mirrors_pure []
  | cons a rest ih => exact (each a).bind fun x => ih.bind fun xs => mirrors_pure ((a, x) :: xs)

variable {P : Problem σ α ρ} {successor successor' : σ → LedgerM σ α ρ ω ρ} {s : σ} {a : α}

theorem mirrors_addTerms (successors : ∀ f, Mirrors (- ·) (successor f) (successor' f))
    (discount sum : ρ) (fs : List σ) (ws : List ρ) :
    Mirrors (- ·) (addTerms P successor discount s a sum fs ws)
      (addTerms P.negated successor' discount s a (-sum) fs ws) := by
  induction fs generalizing sum ws with
  | nil => exact mirrors_pure sum
  | cons f rest ih =>
    cases ws with
    | nil => exact mirrors_pure sum
    | cons w others =>
      have collected : Mirrors (ω := ω) id
          (onLedger fun l : Ledger σ α ρ => ((), l.collect s a f))
          (onLedger fun l : Ledger σ α ρ => ((), l.collect s a f)) :=
        mirrors_onLedger fun _ _ negates => ⟨rfl, negates.collect s a f⟩
      refine (successors f).bind fun future => collected.bind fun _ => ?_
      have term : -sum + w * (P.negated.immediate s a f + discount * -future) =
          -(sum + w * (P.immediate s a f + discount * future)) := by
        rw [Scalar.Signed.neg_add sum, ← Scalar.Signed.mul_neg w,
          Scalar.Signed.neg_add (P.immediate s a f), ← Scalar.Signed.mul_neg discount]
        rfl
      rw [term]
      exact ih _ others

theorem mirrors_expectedValue (successors : ∀ f, Mirrors (- ·) (successor f) (successor' f))
    (finals : List σ) :
    Mirrors (- ·) (expectedValue P (pure finals) successor s a)
      (expectedValue P.negated (pure finals) successor' s a) := by
  have looked : Mirrors (ω := ω) (Option.map (- ·))
      (query fun l : Ledger σ α ρ => .ok (l.expected? s a))
      (query fun l : Ledger σ α ρ => .ok (l.expected? s a)) :=
    mirrors_query fun _ _ negates => congrArg Except.ok (negates.expected s a)
  refine looked.bind fun held => ?_
  cases held with
  | some x => exact mirrors_pure x
  | none =>
    have weighed : Mirrors (ρ := ρ) (ω := ω) id (ofExcept (P.weights s a finals))
        (ofExcept (P.negated.weights s a finals)) := by
      have same := mirrors_ofExcept (ρ := ρ) (ω := ω) (g := id) (P.weights s a finals)
      rwa [Except.map_id] at same
    have read : Mirrors (ω := ω) id (query fun l : Ledger σ α ρ => .ok l.discount)
        (query fun l : Ledger σ α ρ => .ok l.discount) :=
      mirrors_query fun _ _ negates => congrArg Except.ok negates.discount_eq
    simp only [Option.map_none, pure_bind]
    refine weighed.bind fun weights => read.bind fun discount => ?_
    have added := mirrors_addTerms (P := P) (s := s) (a := a) successors discount 0 finals weights
    rw [Scalar.Signed.neg_zero] at added
    exact added.bind fun x => mirrors_onLedger fun _ _ negates => negates.enterExpected s a x

end Mirrors

end LedgerM

end Horizon
