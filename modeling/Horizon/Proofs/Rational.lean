import Mathlib.Algebra.BigOperators.Ring.List
import Mathlib.Algebra.Order.BigOperators.Group.List
import Mathlib.Algebra.Order.Field.Rat
import Mathlib.Algebra.Order.Ring.Cast
import Horizon.Proofs.Bellman

/-! Rational numbers as scalars.

Every rational is a number and finite, the comparison is the linear order, and a sum from the left
is a sum. On exact values an expectation grows with the values it is taken of, because masses are
not negative (`improves_expectation`).
-/

set_option autoImplicit false

namespace Horizon

instance : Scalar ℚ where
  lt x y := decide (x < y)
  le x y := decide (x ≤ y)
  isFinite _ := true
  isNaN _ := false
  ofInt n := n

namespace Rational

@[simp] theorem lt_iff (x y : ℚ) : Scalar.lt x y = true ↔ x < y :=
  decide_eq_true_iff

@[simp] theorem le_iff (x y : ℚ) : Scalar.le x y = true ↔ x ≤ y :=
  decide_eq_true_iff

@[simp] theorem total_eq_sum (xs : List ℚ) : Scalar.total xs = xs.sum :=
  List.sum_eq_foldl.symm

instance : Scalar.Ranked ℚ where
  irrefl x := by simp [Bool.eq_false_iff]
  trans x y z := by
    rw [lt_iff, lt_iff, lt_iff]
    exact lt_trans
  split x y z _ := by
    rw [lt_iff, lt_iff, lt_iff]
    intro less
    rcases lt_or_ge x y with below | above
    · exact .inl below
    · exact .inr (lt_of_le_of_lt above less)

end Rational

theorem cast_positivePart (n : Int) : (Scalar.positivePart n : ℚ) = max (n : ℚ) 0 := by
  have cast : (Scalar.positivePart n : ℚ) = ((max n 0 : Int) : ℚ) := rfl
  rw [cast, Int.cast_max, Int.cast_zero]

theorem Direction.improves_eq_false_iff (direction : Direction) (x y : ℚ) :
    direction.improves x y = false ↔
      match direction with
      | .minimize => y ≤ x
      | .maximize => x ≤ y := by
  rw [Bool.eq_false_iff]
  cases direction <;> simp [Direction.improves]

namespace Problem

variable {σ α : Type} (P : Problem σ α ℚ) (discount : ℚ) {s : σ} {a : α} {finals : List σ}

def share (s : σ) (a : α) (finals : List σ) (f : σ) : ℚ :=
  P.probability s a f / (finals.map (P.probability s a)).sum

theorem expectation_eq_sum (value : σ → ℚ) :
    P.expectation discount value s a finals =
      (finals.map fun f =>
        P.share s a finals f * (P.immediate s a f + discount * value f)).sum := by
  rw [expectation, Rational.total_eq_sum, Rational.total_eq_sum]
  rfl

theorem weighable_iff {P : Problem σ α ℚ} : P.Weighable s a finals ↔
    (∀ f ∈ finals, 0 ≤ P.probability s a f) ∧ 0 < (finals.map (P.probability s a)).sum := by
  have positive : Scalar.le (Scalar.total (finals.map (P.probability s a))) 0 = false ↔
      0 < (finals.map (P.probability s a)).sum := by
    rw [Rational.total_eq_sum, Bool.eq_false_iff, Ne, Rational.le_iff, not_le]
  constructor
  · intro weighable
    exact ⟨fun f member => (Rational.le_iff _ _).1 (weighable.nonnegative f member),
      positive.1 weighable.positive⟩
  · rintro ⟨nonneg, some⟩
    exact ⟨fun _ _ => rfl, fun f member => (Rational.le_iff _ _).2 (nonneg f member),
      positive.2 some⟩

theorem Weighable.sum_pos {P : Problem σ α ℚ} (weighable : P.Weighable s a finals) :
    0 < (finals.map (P.probability s a)).sum :=
  (weighable_iff.1 weighable).2

theorem Weighable.share_nonneg {P : Problem σ α ℚ} (weighable : P.Weighable s a finals) {f : σ}
    (member : f ∈ finals) : 0 ≤ P.share s a finals f :=
  div_nonneg ((weighable_iff.1 weighable).1 f member) weighable.sum_pos.le

theorem Weighable.sum_share {P : Problem σ α ℚ} (weighable : P.Weighable s a finals) :
    (finals.map (P.share s a finals)).sum = 1 := by
  have shares : finals.map (P.share s a finals) =
      finals.map fun f => P.probability s a f * ((finals.map (P.probability s a)).sum)⁻¹ := rfl
  rw [shares, List.sum_map_mul_right]
  exact mul_inv_cancel₀ weighable.sum_pos.ne'

variable {P discount}

-- An expectation is not better than another when no value it is taken of is.
theorem improves_expectation (weighable : P.Weighable s a finals) (nonneg : 0 ≤ discount)
    (direction : Direction) {value value' : σ → ℚ}
    (each : ∀ f ∈ finals, direction.improves (value f) (value' f) = false) :
    direction.improves (P.expectation discount value s a finals)
      (P.expectation discount value' s a finals) = false := by
  have monotone : ∀ value value' : σ → ℚ, (∀ f ∈ finals, value f ≤ value' f) →
      P.expectation discount value s a finals ≤ P.expectation discount value' s a finals := by
    intro value value' each
    rw [expectation_eq_sum, expectation_eq_sum]
    apply List.sum_le_sum
    intro f member
    have later := mul_le_mul_of_nonneg_left (each f member) nonneg
    exact mul_le_mul_of_nonneg_left (add_le_add_right later _) (weighable.share_nonneg member)
  simp only [Direction.improves_eq_false_iff] at each ⊢
  cases direction with
  | minimize => exact monotone value' value each
  | maximize => exact monotone value value' each

end Problem

end Horizon
