import Horizon.Proofs.Thinning
import Horizon.Proofs.Values

/-! How the size of a sample shrinks.

The size is multiplied by a power of the reduction factor. Repeated squaring rounds each product,
and still a greater exponent never gives a greater power. The exponent is the period in two's
complement of 32 bits, so sizes shrink as long as it does not wrap, and one that is below zero gives
more elements than the sampling was configured for.
-/

set_option autoImplicit false

namespace Horizon

open Binary64

namespace Sampling

def exponentAt (period : Nat) : Int :=
  Int.bmod period UInt32.size

@[simp] theorem multiplyPower_zero (steps : Nat) (base product : Float) :
    multiplyPower steps base 0 product = product := by
  cases steps <;> rfl

theorem multiplyPower_succ (steps : Nat) (base : Float) (exponent : Nat) (product : Float) :
    multiplyPower (steps + 1) base exponent product =
      multiplyPower steps (base * base) (exponent / 2)
        (if exponent % 2 = 1 then product * base else product) := by
  rw [multiplyPower]
  by_cases last : exponent / 2 = 0 <;> simp [last]

structure IsReduction (x : Float) : Prop where
  unsigned : Unsigned x
  le_one : value x ≤ 1

namespace IsReduction

variable {x y : Float}

theorem mul_value (left : IsReduction x) (right : IsReduction y) :
    value (x * y) = rounded (value x * value y) :=
  (value_mul_of_le_one left.unsigned right.unsigned left.le_one right.le_one).2

theorem value_eq (left : IsReduction x) : rounded (value x) = value x :=
  rounded_worth left.unsigned

theorem mul (left : IsReduction x) (right : IsReduction y) : IsReduction (x * y) where
  unsigned := (value_mul_of_le_one left.unsigned right.unsigned left.le_one right.le_one).1
  le_one := by
    rw [left.mul_value right]
    exact rounded_le_one (mul_nonneg (value_nonneg x) (value_nonneg y))
      (mul_le_one₀ left.le_one (value_nonneg y) right.le_one)

theorem mul_if (left : IsReduction x) (right : IsReduction y) (c : Prop) [Decidable c] :
    IsReduction (if c then x * y else x) := by
  split
  · exact left.mul right
  · exact left

theorem mul_mono {x' y' : Float} (left : IsReduction x) (right : IsReduction y)
    (left' : IsReduction x') (right' : IsReduction y') (ordered : value x ≤ value x')
    (ordered' : value y ≤ value y') : value (x * y) ≤ value (x' * y') := by
  rw [left.mul_value right, left'.mul_value right']
  exact rounded_mono (mul_nonneg (value_nonneg x) (value_nonneg y))
    (mul_le_mul ordered ordered' (value_nonneg y) (value_nonneg x'))

theorem mul_le_right (left : IsReduction x) (right : IsReduction y) : value (x * y) ≤ value y := by
  rw [left.mul_value right]
  exact (rounded_mono (mul_nonneg (value_nonneg x) (value_nonneg y))
    (mul_le_of_le_one_left (value_nonneg y) left.le_one)).trans_eq right.value_eq

theorem mul_le_left (left : IsReduction x) (right : IsReduction y) : value (x * y) ≤ value x := by
  rw [left.mul_value right]
  exact (rounded_mono (mul_nonneg (value_nonneg x) (value_nonneg y))
    (mul_le_of_le_one_right (value_nonneg x) right.le_one)).trans_eq left.value_eq

theorem mul_of_one (left : IsReduction x) (right : IsReduction y) (whole : value x = 1)
    (whole' : value y = 1) : value (x * y) = 1 := by
  rw [left.mul_value right, whole, whole', mul_one, rounded_one]

theorem one : IsReduction 1.0 :=
  ⟨value_one.1, value_one.2.le⟩

end IsReduction

theorem isReduction_multiplyPower {steps exponent : Nat} {base product : Float}
    (factor : IsReduction base) (reduced : IsReduction product) :
    IsReduction (multiplyPower steps base exponent product) := by
  induction steps generalizing base exponent product with
  | zero => exact reduced
  | succ steps ih =>
    rw [multiplyPower_succ]
    exact ih (factor.mul factor) (reduced.mul_if factor _)

theorem multiplyPower_mono {steps exponent : Nat} {base product product' : Float}
    (factor : IsReduction base) (reduced : IsReduction product) (reduced' : IsReduction product')
    (ordered : value product ≤ value product') :
    value (multiplyPower steps base exponent product) ≤
      value (multiplyPower steps base exponent product') := by
  induction steps generalizing base exponent product product' with
  | zero => exact ordered
  | succ steps ih =>
    rw [multiplyPower_succ, multiplyPower_succ]
    split
    · exact ih (factor.mul factor) (reduced.mul factor) (reduced'.mul factor)
        (reduced.mul_mono factor reduced' factor ordered le_rfl)
    · exact ih (factor.mul factor) reduced reduced' ordered

-- The induction is on the bits of the exponents, the least first. The product of the smaller
-- exponent is at least the power that the next bit stands for, so the greater one, which has a bit
-- where the smaller has none, comes below it with that bit, whatever its product was.
theorem multiplyPower_antitone {steps m n : Nat} {base product product' : Float}
    (factor : IsReduction base) (reduced : IsReduction product) (reduced' : IsReduction product')
    (base_le : value base ≤ value product) (less : m < n) (short : n < 2 ^ steps) :
    value (multiplyPower steps base n product') ≤ value (multiplyPower steps base m product) := by
  induction steps generalizing base m n product product' with
  | zero => omega
  | succ steps ih =>
    rw [multiplyPower_succ, multiplyPower_succ]
    have square := factor.mul factor
    rcases Nat.lt_or_ge (m / 2) (n / 2) with halves | halves
    · refine ih square (reduced.mul_if factor _) (reduced'.mul_if factor _) ?_ halves (by omega)
      split
      · exact factor.mul_mono factor reduced factor base_le le_rfl
      · exact (factor.mul_le_left factor).trans base_le
    · -- the exponents differ in their last bits alone
      rw [show m / 2 = n / 2 by omega, if_pos (by omega), if_neg (by omega)]
      exact multiplyPower_mono square (reduced'.mul factor) reduced
        ((reduced'.mul_le_right factor).trans base_le)

theorem multiplyPower_one_antitone {steps m n : Nat} {base : Float} (factor : IsReduction base)
    (ordered : m ≤ n) (short : n < 2 ^ steps) :
    value (multiplyPower steps base n 1.0) ≤ value (multiplyPower steps base m 1.0) := by
  rcases ordered.lt_or_eq with less | rfl
  · exact multiplyPower_antitone factor .one .one (factor.le_one.trans value_one.2.ge) less short
  · exact le_rfl

theorem value_multiplyPower_of_one {steps exponent : Nat} {base product : Float}
    (factor : IsReduction base) (reduced : IsReduction product) (one : value base = 1)
    (one' : value product = 1) : value (multiplyPower steps base exponent product) = 1 := by
  induction steps generalizing base exponent product with
  | zero => exact one'
  | succ steps ih =>
    rw [multiplyPower_succ]
    refine ih (factor.mul factor) (reduced.mul_if factor _) (factor.mul_of_one factor one one) ?_
    split
    · exact reduced.mul_of_one factor one' one
    · exact one'

theorem IsReduction.one_div {x : Float} (reduced : IsReduction x) :
    Unsigned (1.0 / x) ∧ 1 ≤ value (1.0 / x) := by
  obtain ⟨unsigned, quotient⟩ := value_one_div reduced.unsigned reduced.le_one
  refine ⟨unsigned, ?_⟩
  rw [quotient]
  split_ifs with zero
  · exact one_lt_limit.le
  · have above : 1 ≤ 1 / value x := one_le_one_div ((value_nonneg x).lt_of_ne' zero) reduced.le_one
    exact le_min (rounded_one.ge.trans (rounded_mono zero_le_one above)) one_lt_limit.le

theorem IsReduction.one_div_antitone {x y : Float} (left : IsReduction x) (right : IsReduction y)
    (ordered : value x ≤ value y) : value (1.0 / y) ≤ value (1.0 / x) := by
  rcases (value_nonneg x).eq_or_lt with zero | positive
  · rw [(value_one_div left.unsigned left.le_one).2, if_pos zero.symm]
    exact right.one_div.1.value_le_limit
  · have positive' := positive.trans_le ordered
    rw [(value_one_div left.unsigned left.le_one).2, if_neg positive.ne',
      (value_one_div right.unsigned right.le_one).2, if_neg positive'.ne']
    exact min_le_min_right _ (rounded_mono (one_div_pos.2 positive').le
      (one_div_le_one_div_of_le positive ordered))

theorem power_of_nonneg (base : Float) {e : Int} (nonneg : 0 ≤ e) :
    power base e = multiplyPower 32 base e.natAbs 1.0 :=
  if_neg (not_lt.2 nonneg)

theorem power_of_neg (base : Float) {e : Int} (negative : e < 0) :
    power base e = 1.0 / multiplyPower 32 base e.natAbs 1.0 :=
  if_pos negative

theorem unsigned_power {base : Float} (factor : IsReduction base) (e : Int) :
    Unsigned (power base e) := by
  have reduced : IsReduction (multiplyPower 32 base e.natAbs 1.0) :=
    isReduction_multiplyPower factor .one
  rcases lt_or_ge e 0 with negative | nonneg
  · rw [power_of_neg base negative]
    exact reduced.one_div.1
  · rw [power_of_nonneg base nonneg]
    exact reduced.unsigned

theorem power_antitone {base : Float} (factor : IsReduction base) {e f : Int} (ordered : e ≤ f)
    (least : -2 ^ 31 ≤ e) (most : f < 2 ^ 31) : value (power base f) ≤ value (power base e) := by
  have reduced : ∀ n, IsReduction (multiplyPower 32 base n 1.0) := fun n =>
    isReduction_multiplyPower factor .one
  rcases lt_or_ge e 0 with negative | nonneg
  · rcases lt_or_ge f 0 with negative' | nonneg'
    · rw [power_of_neg base negative, power_of_neg base negative']
      exact (reduced _).one_div_antitone (reduced _)
        (multiplyPower_one_antitone factor (by omega) (by omega))
    · rw [power_of_neg base negative, power_of_nonneg base nonneg']
      exact (reduced _).le_one.trans (reduced _).one_div.2
  · rw [power_of_nonneg base nonneg, power_of_nonneg base (nonneg.trans ordered)]
    exact multiplyPower_one_antitone factor (by omega) (by omega)

theorem value_size {n : Nat} (large : 0 < n) (word : n < UInt64.size) :
    Unsigned (Float.ofNat n) ∧ 1 ≤ value (Float.ofNat n) ∧ value (Float.ofNat n) < limit := by
  obtain ⟨unsigned, converted⟩ := value_ofNat large
  have above : rounded 1 ≤ rounded n := rounded_mono zero_le_one (by exact_mod_cast large)
  have below : rounded n ≤ rounded (2 ^ 64) :=
    rounded_mono n.cast_nonneg (by exact_mod_cast word.le)
  have kept : rounded (2 ^ 64) = 2 ^ 64 := by
    simpa using rounded_eq_self (m := 1) (e := 64) (by decide) (by decide)
  rw [rounded_one] at above
  rw [converted]
  exact ⟨unsigned, le_min above one_lt_limit.le,
    (min_le_left _ _).trans_lt ((below.trans_eq kept).trans_lt (two_pow_lt_limit (by decide)))⟩

theorem value_size_of_le {n : Nat} (large : 0 < n) (exact : n ≤ 2 ^ 53) :
    value (Float.ofNat n) = n := by
  have kept : rounded n = n := by simpa using rounded_eq_self (e := 0) exact (by decide)
  rw [(value_ofNat large).2, kept, min_eq_left]
  exact le_trans (by exact_mod_cast exact) (two_pow_lt_limit (by decide : 53 < 1024)).le

theorem exponentAt_bounds (period : Nat) :
    -2 ^ 31 ≤ exponentAt period ∧ exponentAt period < 2 ^ 31 :=
  ⟨Int.le_bmod (by decide), Int.bmod_lt (by decide)⟩

theorem exponentAt_of_lt {period : Nat} (small : period < 2 ^ 31) : exponentAt period = period :=
  Int.bmod_eq_of_le (by simp [UInt32.size]) (by simp [UInt32.size]; omega)

variable {s : Sampling}

theorem reduction_spec (valid : s.validate = .ok ()) (sampled : s.isExhaustive = false) :
    0 < s.size ∧ IsReduction s.reduction := by
  rw [validate, sampled] at valid
  simp only [Bool.false_eq_true, if_false] at valid
  split at valid
  · cases valid
  · split at valid
    · next factor =>
      obtain ⟨unsigned, -, le_one⟩ := isFactor_spec factor
      exact ⟨by omega, unsigned, le_one⟩
    · cases valid

def scaledAt (s : Sampling) (period : Nat) : Float :=
  Float.ofNat s.size * power s.reduction (exponentAt period)

theorem sizeAt_eq (positive : 0 < s.size) (word : s.size < UInt64.size)
    (reduced : IsReduction s.reduction) (period : Nat) :
    s.sizeAt period = max 1 (min (UInt64.size - 1) ⌈value (s.scaledAt period)⌉.toNat) := by
  obtain ⟨unsigned, above, below⟩ := value_size positive word
  have scaled : Unsigned (s.scaledAt period) :=
    unsigned.mul (one_pos.trans_le above) below (unsigned_power reduced _)
  rw [← ceilingUnsigned_eq scaled]
  rfl

theorem sizeAt_antitone (valid : s.validate = .ok ()) (sampled : s.isExhaustive = false)
    (word : s.size < UInt64.size) {t u : Nat} (ordered : exponentAt t ≤ exponentAt u) :
    s.sizeAt u ≤ s.sizeAt t := by
  obtain ⟨positive, reduced⟩ := reduction_spec valid sampled
  obtain ⟨unsigned, above, below⟩ := value_size positive word
  have scaled : value (s.scaledAt u) ≤ value (s.scaledAt t) :=
    value_mul_mono unsigned (one_pos.trans_le above) below (unsigned_power reduced _)
      (unsigned_power reduced _)
      (power_antitone reduced ordered (exponentAt_bounds t).1 (exponentAt_bounds u).2)
  rw [sizeAt_eq positive word reduced, sizeAt_eq positive word reduced]
  exact max_le_max_left _ (min_le_min_left _ (Int.toNat_le_toNat (Int.ceil_mono scaled)))

theorem sizeAt_of_value_one (valid : s.validate = .ok ()) (sampled : s.isExhaustive = false)
    (exact : s.size ≤ 2 ^ 53) {t : Nat} (one : value (power s.reduction (exponentAt t)) = 1) :
    s.sizeAt t = s.size := by
  obtain ⟨positive, reduced⟩ := reduction_spec valid sampled
  have word : s.size < UInt64.size := exact.trans_lt (by decide)
  obtain ⟨unsigned, above, below⟩ := value_size positive word
  have kept : rounded (value (Float.ofNat s.size)) = value (Float.ofNat s.size) :=
    rounded_worth unsigned
  have scaled : value (s.scaledAt t) = s.size := by
    rw [scaledAt, (value_mul unsigned (unsigned_power reduced _) below (one ▸ one_lt_limit)).2, one,
      mul_one, kept, min_eq_left below.le, value_size_of_le positive exact]
  rw [sizeAt_eq positive word reduced, scaled, Int.ceil_natCast, Int.toNat_natCast,
    min_eq_right (Nat.le_sub_one_of_lt word), max_eq_right positive]

theorem lt_sizeAt (valid : s.validate = .ok ()) (sampled : s.isExhaustive = false)
    (exact : s.size ≤ 2 ^ 53) (below : value s.reduction < 1) {t : Nat}
    (negative : exponentAt t < 0) : s.size < s.sizeAt t := by
  obtain ⟨positive, reduced⟩ := reduction_spec valid sampled
  have word : s.size < UInt64.size := exact.trans_lt (by decide)
  obtain ⟨unsigned, above, finite⟩ := value_size positive word
  have grown : 1 + 2 ^ (-52 : ℤ) ≤ value (power s.reduction (exponentAt t)) := by
    rw [power_of_neg _ negative]
    refine value_one_div_of_lt_one (isReduction_multiplyPower reduced .one).unsigned ?_
    have bound := (exponentAt_bounds t).1
    calc value (multiplyPower 32 s.reduction (exponentAt t).natAbs 1.0)
      _ ≤ value (multiplyPower 32 s.reduction 1 1.0) :=
        multiplyPower_one_antitone reduced (by omega) (by omega)
      _ ≤ value s.reduction := by
        rw [multiplyPower_succ, multiplyPower_zero, if_pos rfl]
        exact IsReduction.one.mul_le_right reduced
      _ < 1 := below
  have scaled : (s.size : ℚ) < value (s.scaledAt t) := by
    rw [← value_size_of_le positive exact]
    exact lt_value_mul unsigned above finite (unsigned_power reduced _) grown
  have rounded : s.size < ⌈value (s.scaledAt t)⌉.toNat :=
    Int.lt_toNat.2 (Int.lt_ceil.2 (by exact_mod_cast scaled))
  have inside : s.size < UInt64.size - 1 := exact.trans_lt (by decide)
  rw [sizeAt_eq positive word reduced]
  exact lt_max_of_lt_right (lt_min inside rounded)

theorem value_power_of_one (reduced : IsReduction s.reduction) (one : value s.reduction = 1)
    (e : Int) : value (power s.reduction e) = 1 := by
  have product : value (multiplyPower 32 s.reduction e.natAbs 1.0) = 1 :=
    value_multiplyPower_of_one reduced .one one value_one.2
  rcases lt_or_ge e 0 with negative | nonneg
  · have factor : IsReduction (multiplyPower 32 s.reduction e.natAbs 1.0) :=
      isReduction_multiplyPower reduced .one
    rw [power_of_neg _ negative, (value_one_div factor.unsigned factor.le_one).2, product,
      if_neg one_ne_zero, one_div_one, rounded_one, min_eq_left one_lt_limit.le]
  · rw [power_of_nonneg _ nonneg, product]

theorem sizeAt_zero (valid : s.validate = .ok ()) (sampled : s.isExhaustive = false)
    (exact : s.size ≤ 2 ^ 53) : s.sizeAt 0 = s.size := by
  refine sizeAt_of_value_one valid sampled exact ?_
  rw [show exponentAt 0 = 0 from rfl, power_of_nonneg _ le_rfl]
  exact value_one.2

-- Of two whole numbers that are as near, this one is rounded to the greater.
example : (⟨.random, 2 ^ 53 + 3, 1.0⟩ : Sampling).sizeAt 0 = 2 ^ 53 + 4 := by
  decide +kernel

theorem sizeAt_le_iff (valid : s.validate = .ok ()) (sampled : s.isExhaustive = false)
    (exact : s.size ≤ 2 ^ 53) (t : Nat) :
    s.sizeAt t ≤ s.size ↔ 0 ≤ exponentAt t ∨ Scalar.lt s.reduction 1 = false := by
  obtain ⟨-, reduced⟩ := reduction_spec valid sampled
  have below : Scalar.lt s.reduction 1 = true ↔ value s.reduction < 1 := by
    rw [← value_one.2]
    exact lt_iff reduced.unsigned value_one.1
  constructor
  · intro bounded
    by_contra wrapped
    simp only [not_or, not_le, Bool.not_eq_false] at wrapped
    exact absurd bounded (lt_sizeAt valid sampled exact (below.1 wrapped.2) wrapped.1).not_ge
  · rintro (nonneg | whole)
    · have shrunk : s.sizeAt t ≤ s.sizeAt 0 :=
        sizeAt_antitone valid sampled (exact.trans_lt (by decide)) nonneg
      exact shrunk.trans_eq (sizeAt_zero valid sampled exact)
    · have one : value s.reduction = 1 :=
        reduced.le_one.antisymm (not_lt.1 fun less => by simp [below.2 less] at whole)
      exact (sizeAt_of_value_one valid sampled exact (value_power_of_one reduced one _)).le

theorem length_select_le (sampled : s.isExhaustive = false) {length period : Nat} (seed : UInt64)
    (longer : s.sizeAt period < length) :
    (s.select length period seed).length ≤ s.sizeAt period := by
  have selects := s.selects length period seed
  cases scheme : s.scheme with
  | exhaustive => simp [isExhaustive, scheme] at sampled
  | random => exact (selects.drawn scheme longer).2
  | midpoints => exact (selects.counted scheme longer).le

end Sampling

/-- A sampling that passes the check keeps at least one element, and no more with a greater
exponent, so sizes shrink from the one of period zero up to the period at which 32 bits wrap. That
one is the configured size if binary64 holds all whole numbers up to it. Then at most as many
elements are kept just when the exponent is not below zero or nothing is reduced. -/
theorem sample_sizes_shrink (s : Sampling) (valid : s.validate = .ok ())
    (sampled : s.isExhaustive = false) (word : s.size < UInt64.size) :
    (∀ t u, Sampling.exponentAt t ≤ Sampling.exponentAt u →
      1 ≤ s.sizeAt u ∧ s.sizeAt u ≤ s.sizeAt t) ∧
    (∀ t u : Nat, t ≤ u → u < 2 ^ 31 →
      1 ≤ s.sizeAt u ∧ s.sizeAt u ≤ s.sizeAt t ∧ s.sizeAt t ≤ s.sizeAt 0) ∧
    (s.size ≤ 2 ^ 53 → s.sizeAt 0 = s.size ∧ ∀ t : Nat,
      (s.sizeAt t ≤ s.size ↔ 0 ≤ Sampling.exponentAt t ∨ Scalar.lt s.reduction 1 = false) ∧
        (t < 2 ^ 31 → ∀ (length : Nat) (seed : UInt64), s.size < length →
          (s.select length t seed).length ≤ s.size)) := by
  have antitone : ∀ t u : Nat, t ≤ u → u < 2 ^ 31 → s.sizeAt u ≤ s.sizeAt t := by
    intro t u before small
    refine Sampling.sizeAt_antitone valid sampled word ?_
    rw [Sampling.exponentAt_of_lt (before.trans_lt small), Sampling.exponentAt_of_lt small]
    exact_mod_cast before
  refine ⟨fun t u ordered => ?_, fun t u before small => ?_, fun exact => ?_⟩
  · exact ⟨s.sizeAt_pos u, Sampling.sizeAt_antitone valid sampled word ordered⟩
  · exact ⟨s.sizeAt_pos u, antitone t u before small,
      antitone 0 t t.zero_le (before.trans_lt small)⟩
  · have first := Sampling.sizeAt_zero valid sampled exact
    refine ⟨first, fun t => ⟨Sampling.sizeAt_le_iff valid sampled exact t, ?_⟩⟩
    intro small length seed longer
    have bounded : s.sizeAt t ≤ s.size := (antitone 0 t t.zero_le small).trans_eq first
    exact (Sampling.length_select_le sampled seed (bounded.trans_lt longer)).trans bounded

-- Four elements, halved with each period.
theorem sample_sizes_shrink_halved :
    let s : Sampling := ⟨.midpoints, 4, 0.5⟩
    s.validate = .ok () ∧ s.sizeAt 0 = 4 ∧ s.sizeAt 1 = 2 ∧ s.sizeAt 30 ≤ s.sizeAt 1 ∧
      (s.select 10 1 7).length ≤ 4 := by
  intro s
  have valid : s.validate = .ok () := eq_ok_of_toOption (by decide +kernel)
  obtain ⟨-, shrink, exact⟩ := sample_sizes_shrink s valid rfl (by decide)
  obtain ⟨first, bounded⟩ := exact (by decide)
  obtain ⟨-, shrunk, -⟩ := shrink 1 30 (by decide) (by decide)
  exact ⟨valid, first, by decide +kernel, shrunk, (bounded 1).2 (by decide) 10 7 (by decide)⟩

-- The last period that 32 bits can tell apart has the exponent minus one, which doubles the size.
theorem sample_size_grows_when_wrapped :
    let s : Sampling := ⟨.midpoints, 4, 0.5⟩
    s.validate = .ok () ∧ s.isExhaustive = false ∧ s.sizeAt (2 ^ 32 - 1) = 8 ∧
      ¬s.sizeAt (2 ^ 32 - 1) ≤ s.sizeAt 0 ∧ ¬s.sizeAt (2 ^ 32 - 1) ≤ s.size ∧
      ¬(s.select 10 (2 ^ 32 - 1) 7).length ≤ s.size := by
  intro s
  exact ⟨eq_ok_of_toOption (by decide +kernel), rfl, by decide +kernel, by decide +kernel,
    by decide +kernel, by decide +kernel⟩

end Horizon
