import Horizon.Proofs.Passes
import Horizon.Proofs.Rational

/-! Sums of masses.

Numbers that are not below zero have a sum that is not either, and it is above zero once one of them
is (`Scalar.Additive`). So masses that can be used can be weighed when one of them is positive, and
they sum to zero only when all of them are zero (`Scalar.Vanishing`). A sum of one number is that
number, but for the sign of a zero (`Scalar.Unital`); the order of the terms does not matter where
addition is exact (`Scalar.Exact`).
-/

set_option autoImplicit false

namespace Horizon

/-- Adding up numbers that are not below zero never leads back to zero. -/
class Scalar.Additive (ρ : Type) [Scalar ρ] : Prop extends Scalar.Grounded ρ where
  add_nonneg : ∀ x y : ρ, Scalar.le 0 x = true → Scalar.le 0 y = true → Scalar.le 0 (x + y) = true
  add_pos : ∀ x y : ρ, Scalar.le 0 x = true → Scalar.le 0 y = true →
    Scalar.lt 0 x = true ∨ Scalar.lt 0 y = true → Scalar.lt 0 (x + y) = true
  not_le_of_pos : ∀ x : ρ, Scalar.lt 0 x = true → Scalar.le x 0 = false

instance : Scalar.Additive ℚ where
  zero_le_zero := by simp
  add_nonneg x y := by
    rw [Rational.le_iff, Rational.le_iff, Rational.le_iff]
    exact add_nonneg
  add_pos x y := by
    rw [Rational.le_iff, Rational.le_iff, Rational.lt_iff, Rational.lt_iff, Rational.lt_iff]
    rintro left right (first | second)
    · exact add_pos_of_pos_of_nonneg first right
    · exact add_pos_of_nonneg_of_pos left second
  not_le_of_pos x := by
    rw [Rational.lt_iff, Bool.eq_false_iff, Ne, Rational.le_iff]
    exact not_le_of_gt

/-- A finite number is below zero exactly when it is not at least zero. -/
class Scalar.Comparable (ρ : Type) [Scalar ρ] : Prop where
  lt_zero_iff : ∀ x : ρ, Scalar.isFinite x = true →
    (Scalar.lt x 0 = true ↔ Scalar.le 0 x = false)

instance : Scalar.Comparable ℚ where
  lt_zero_iff x _ := by
    rw [Rational.lt_iff, Bool.eq_false_iff, Ne, Rational.le_iff, not_le]

def Scalar.Same {ρ : Type} [Scalar ρ] (x y : ρ) : Prop :=
  x = y ∨ Scalar.le x y = true ∧ Scalar.le y x = true

/-- Zeros add up to a zero, and a finite number that is not above zero is at most zero. -/
class Scalar.Vanishing (ρ : Type) [Scalar ρ] : Prop where
  add_zeros : ∀ x y : ρ, Scalar.Same x 0 → Scalar.Same y 0 → Scalar.Same (x + y) 0
  le_zero_of_not_pos : ∀ x : ρ, Scalar.isFinite x = true → Scalar.lt 0 x = false →
    Scalar.le x 0 = true

class Scalar.Unital (ρ : Type) [Scalar ρ] : Prop where
  zero_add_same : ∀ x : ρ, Scalar.Same (0 + x) x

class Scalar.Exact (ρ : Type) [Scalar ρ] : Prop where
  zero_add : ∀ x : ρ, 0 + x = x
  add_comm : ∀ x y : ρ, x + y = y + x
  add_assoc : ∀ x y z : ρ, x + y + z = x + (y + z)

instance : Scalar.Vanishing ℚ where
  add_zeros x y left right := by
    simp only [Scalar.Same, Rational.le_iff, ← le_antisymm_iff, or_self] at left right ⊢
    rw [left, right, add_zero]
  le_zero_of_not_pos x _ := by
    rw [Bool.eq_false_iff, Ne, Rational.lt_iff, Rational.le_iff, not_lt]
    exact id

instance : Scalar.Unital ℚ where
  zero_add_same x := .inl (zero_add x)

instance : Scalar.Exact ℚ where
  zero_add := zero_add
  add_comm := add_comm
  add_assoc := add_assoc

namespace Scalar

section Exact

variable (ρ : Type) [Scalar ρ] [Scalar.Exact ρ]

abbrev exactAdd : AddCommMonoid ρ where
  add_assoc := Exact.add_assoc
  zero_add := Exact.zero_add
  add_zero x := (Exact.add_comm x 0).trans (Exact.zero_add x)
  add_comm := Exact.add_comm
  nsmul := nsmulRec

variable {ρ}

theorem exact_total_eq_sum (xs : List ρ) : total xs = xs.sum := by
  let _ : AddCommMonoid ρ := exactAdd ρ
  exact List.sum_eq_foldl.symm

end Exact

variable {ρ : Type} [Scalar ρ]

theorem isMass_eq_true_iff [Scalar.Comparable ρ] {x : ρ} :
    isMass x = true ↔ ¬(lt x 0 = true ∨ isFinite x = false) := by
  rw [isMass, Bool.and_eq_true, not_or, Bool.not_eq_false]
  constructor
  · rintro ⟨finite, nonneg⟩
    rw [Comparable.lt_zero_iff x finite, nonneg]
    exact ⟨Bool.noConfusion, finite⟩
  · rintro ⟨above, finite⟩
    rw [Comparable.lt_zero_iff x finite, Bool.not_eq_false] at above
    exact ⟨finite, above⟩

theorem total_zeros [Scalar.Vanishing ρ] {xs : List ρ} (zeros : ∀ x ∈ xs, Same x 0) :
    Same (total xs) 0 :=
  List.foldlRecOn xs (· + ·) (.inl rfl) fun sum zero x member =>
    Vanishing.add_zeros sum x zero (zeros x member)

variable [Scalar.Additive ρ]

theorem foldl_pos {xs : List ρ} {sum : ρ} (start : le 0 sum = true)
    (nonnegative : ∀ x ∈ xs, le 0 x = true)
    (positive : lt 0 sum = true ∨ ∃ x ∈ xs, lt 0 x = true) :
    lt 0 (xs.foldl (· + ·) sum) = true := by
  induction xs generalizing sum with
  | nil => simpa using positive
  | cons x rest ih =>
    have first := nonnegative x List.mem_cons_self
    refine ih (Additive.add_nonneg sum x start first)
      (fun y member => nonnegative y (List.mem_cons_of_mem x member)) ?_
    rcases positive with above | ⟨y, member, above⟩
    · exact .inl (Additive.add_pos sum x start first (.inl above))
    · rcases List.mem_cons.1 member with rfl | later
      · exact .inl (Additive.add_pos sum y start first (.inr above))
      · exact .inr ⟨y, later, above⟩

theorem foldl_nonneg {xs : List ρ} {sum : ρ} (start : le 0 sum = true)
    (nonnegative : ∀ x ∈ xs, le 0 x = true) : le 0 (xs.foldl (· + ·) sum) = true :=
  List.foldlRecOn xs (· + ·) start fun sum above x member =>
    Additive.add_nonneg sum x above (nonnegative x member)

-- What is not below zero is at most zero only when it is zero.
theorem total_le_zero_iff {xs : List ρ} (nonnegative : ∀ x ∈ xs, le 0 x = true) :
    le (total xs) 0 = true ↔ Same (total xs) 0 := by
  constructor
  · intro below
    exact .inr ⟨below, foldl_nonneg Grounded.zero_le_zero nonnegative⟩
  · rintro (same | ⟨below, -⟩)
    · rw [same]
      exact Grounded.zero_le_zero
    · exact below

theorem total_pos {xs : List ρ} (nonnegative : ∀ x ∈ xs, le 0 x = true)
    (positive : ∃ x ∈ xs, lt 0 x = true) : lt 0 (total xs) = true :=
  foldl_pos Grounded.zero_le_zero nonnegative (.inr positive)

theorem total_le_zero_iff_zeros [Scalar.Vanishing ρ] {xs : List ρ}
    (masses : ∀ x ∈ xs, isMass x = true) :
    le (total xs) 0 = true ↔ ∀ x ∈ xs, Same x 0 := by
  have parts : ∀ x ∈ xs, isFinite x = true ∧ le 0 x = true := fun x member =>
    (Bool.and_eq_true _ _).mp (masses x member)
  constructor
  · intro below x member
    have none : lt 0 x = false := by
      rw [Bool.eq_false_iff]
      intro above
      have positive := total_pos (fun x member => (parts x member).2) ⟨x, member, above⟩
      rw [Additive.not_le_of_pos _ positive] at below
      cases below
    exact .inr ⟨Vanishing.le_zero_of_not_pos x (parts x member).1 none, (parts x member).2⟩
  · intro zeros
    exact (total_le_zero_iff fun x member => (parts x member).2).2 (total_zeros zeros)

end Scalar

namespace Problem

variable {σ α ρ : Type} [Scalar ρ] [Scalar.Additive ρ]

theorem weighable_of_pos {P : Problem σ α ρ} {s : σ} {a : α} {finals : List σ}
    (usable : ∀ f ∈ finals, Scalar.isMass (P.probability s a f) = true)
    (positive : ∃ f ∈ finals, Scalar.lt 0 (P.probability s a f) = true) :
    P.Weighable s a finals where
  finite f member := ((Bool.and_eq_true _ _).mp (usable f member)).1
  nonnegative f member := ((Bool.and_eq_true _ _).mp (usable f member)).2
  positive := by
    refine Scalar.Additive.not_le_of_pos _ (Scalar.total_pos (fun x member => ?_) ?_)
    · obtain ⟨f, listed, rfl⟩ := List.mem_map.1 member
      exact ((Bool.and_eq_true _ _).mp (usable f listed)).2
    · obtain ⟨f, listed, above⟩ := positive
      exact ⟨_, List.mem_map_of_mem listed, above⟩

end Problem

end Horizon
