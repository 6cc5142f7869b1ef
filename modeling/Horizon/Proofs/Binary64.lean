import Mathlib
import Horizon.Proofs.Masses

/-! Sums of masses in binary64.

A positive significand is never rounded to zero, when its exponent is not below the least one there
is. So neither is a sum of two positive numbers, and what is packed into a word is read from it as a
number of the same kind. Adding a number to zero gives that number, but for a negative zero.
-/

set_option autoImplicit false

namespace Horizon.Binary64

open Float.Model UnpackedFloat

def Positive : UnpackedFloat → Prop
  | .infinity .positive => True
  | .finite .positive _ _ _ => True
  | _ => False

def Nonnegative : UnpackedFloat → Prop
  | .zero _ => True
  | x => Positive x

theorem Positive.nonnegative {x : UnpackedFloat} (positive : Positive x) : Nonnegative x := by
  cases x with
  | zero sign => trivial
  | infinity sign => exact positive
  | finite sign m e large => exact positive
  | notANumber => exact positive

/-- Significand and exponent are such that packing loses nothing, but for an overflow. -/
def Fitting : UnpackedFloat → Prop
  | .finite _ significand exponent _ => significand < 2 ^ 53 ∧ -1074 ≤ exponent
  | _ => True

theorem zero_lt_iff (x : Float) : Scalar.lt Zero.zero x = true ↔ Positive x.toModel.unpack := by
  have unpacked : Scalar.lt Zero.zero x = true ↔
      (UnpackedFloat.zero .positive).lt x.toModel.unpack = true :=
    decide_eq_true_iff
  rw [unpacked]
  rcases x.toModel.unpack with ⟨_ | _⟩ | _ | ⟨_ | _⟩ | ⟨_ | _, m, e, _⟩ <;>
    simp [UnpackedFloat.lt, UnpackedFloat.compare, Positive]

theorem zero_le_iff (x : Float) : Scalar.le Zero.zero x = true ↔ Nonnegative x.toModel.unpack := by
  have unpacked : Scalar.le Zero.zero x = true ↔
      (UnpackedFloat.zero .positive).le x.toModel.unpack = true :=
    decide_eq_true_iff
  rw [unpacked]
  rcases x.toModel.unpack with ⟨_ | _⟩ | _ | ⟨_ | _⟩ | ⟨_ | _, m, e, _⟩ <;>
    simp [UnpackedFloat.le, UnpackedFloat.compare, Nonnegative, Positive]

theorem not_le_zero (x : Float) (positive : Positive x.toModel.unpack) :
    Scalar.le x Zero.zero = false := by
  have unpacked : Scalar.le x Zero.zero = true ↔
      x.toModel.unpack.le (UnpackedFloat.zero .positive) = true :=
    decide_eq_true_iff
  rw [Bool.eq_false_iff, Ne, unpacked]
  revert positive
  rcases x.toModel.unpack with ⟨_ | _⟩ | _ | ⟨_ | _⟩ | ⟨_ | _, m, e, _⟩ <;>
    simp [UnpackedFloat.le, UnpackedFloat.compare, Positive]

theorem shiftRight_mantissa (m : ExtendedMantissa) (k : Nat) :
    (m >>> k).mantissa = m.mantissa / 2 ^ k := by
  induction k with
  | zero => exact (Nat.div_one _).symm
  | succ k ih =>
    change (m >>> k).shiftRightOne.mantissa = _
    rw [ExtendedMantissa.shiftRightOne, ih, Nat.div_div_eq_div_mul, Nat.pow_succ]

theorem mantissa_ofMantissaAndAccuracy (m : Nat) (accuracy : Accuracy) :
    (ExtendedMantissa.ofMantissaAndAccuracy m accuracy).mantissa = m := by
  rcases accuracy with _ | _ | _ | _ <;> rfl

theorem le_roundedMantissa (m : ExtendedMantissa) : m.mantissa ≤ m.roundedMantissa := by
  obtain ⟨m, round, sticky⟩ := m
  cases round <;> cases sticky <;>
    simp [ExtendedMantissa.roundedMantissa, ExtendedMantissa.accuracy, Accuracy.roundToNearestEven]

theorem targetExponent_binary64 (t : Int) :
    Format.binary64.targetExponent t = max (t - 53) (-1074) := by
  rw [Format.targetExponent]
  rfl

-- A positive significand is shifted to at most 53 bits, and never to zero: it is only shifted as
-- far as it is longer than that.
theorem shift_bounds {m : Nat} (positive : 0 < m) {e : Int} (inside : -1074 ≤ e)
    {accuracy : Accuracy} {first : ExtendedMantissa} {e' : Int}
    (shifted : shiftToTargetExponent Format.binary64 m e accuracy = (first, e')) :
    0 < first.mantissa ∧ first.mantissa < 2 ^ 53 ∧ -1074 ≤ e' := by
  have least : 2 ^ m.log2 ≤ m := Nat.log2_self_le (Nat.ne_of_gt positive)
  have most : m < 2 ^ (m.log2 + 1) := Nat.lt_log2_self
  have target : (Format.binary64.targetExponent (totalExponent m e) - e).toNat = m.log2 - 52 := by
    rw [targetExponent_binary64, totalExponent]
    omega
  rw [shiftToTargetExponent, shiftToExponent, target] at shifted
  cases shifted
  rw [shiftRight_mantissa, mantissa_ofMantissaAndAccuracy, ← and_assoc]
  refine ⟨?_, by omega⟩
  rcases Nat.le_total 52 m.log2 with long | short
  · refine ⟨Nat.div_pos ?_ (Nat.two_pow_pos _), ?_⟩
    · exact Nat.le_trans (Nat.pow_le_pow_right (by decide) (Nat.sub_le _ _)) least
    · rw [Nat.div_lt_iff_lt_mul (Nat.two_pow_pos _), ← Nat.pow_add,
        show 53 + (m.log2 - 52) = m.log2 + 1 by omega]
      exact most
  · rw [Nat.sub_eq_zero_of_le short, Nat.pow_zero, Nat.div_one]
    exact ⟨positive, Nat.lt_of_lt_of_le most (Nat.pow_le_pow_right (by decide) (by omega))⟩

theorem roundWithAccuracy_positive {m : Nat} (positive : 0 < m) {e : Int} (inside : -1074 ≤ e)
    (accuracy : Accuracy) :
    Positive (roundWithAccuracy Format.binary64 .positive m e accuracy) ∧
      Fitting (roundWithAccuracy Format.binary64 .positive m e accuracy) := by
  unfold roundWithAccuracy
  rcases shifted : shiftToTargetExponent Format.binary64 m e accuracy with ⟨first, e'⟩
  obtain ⟨kept, -, inside'⟩ := shift_bounds positive inside shifted
  -- rounding may carry into one more bit, which the second shift takes back
  have rounded : 0 < first.roundedMantissa := Nat.lt_of_lt_of_le kept (le_roundedMantissa first)
  rcases carried : shiftToTargetExponent Format.binary64 first.roundedMantissa e' .exact with
    ⟨final, e''⟩
  obtain ⟨above, below, inside''⟩ := shift_bounds rounded inside' carried
  dsimp only
  rw [carried]
  dsimp only
  rw [dif_neg (Nat.ne_of_gt above)]
  exact ⟨trivial, below, inside''⟩

theorem normalize_positive {m : Int} (positive : 0 < m) {e : Int} (inside : -1074 ≤ e) :
    Positive (UnpackedFloat.normalize Format.binary64 m e .positive) ∧
      Fitting (UnpackedFloat.normalize Format.binary64 m e .positive) := by
  have above : compare m 0 = .gt := Int.compare_eq_gt.2 positive
  rw [UnpackedFloat.normalize, above]
  dsimp only
  rw [UnpackedFloat.round, decreaseExponent]
  dsimp only
  apply roundWithAccuracy_positive
  · rw [Nat.shiftLeft_eq]
    exact Nat.mul_pos (by omega) (Nat.two_pow_pos _)
  · rw [targetExponent_binary64]
    omega

theorem nonnegative_cases {x : UnpackedFloat} (nonnegative : Nonnegative x) :
    (∃ sign, x = .zero sign) ∨ x = .infinity .positive ∨
      ∃ m e large, x = .finite .positive m e large := by
  rcases x with ⟨_ | _⟩ | _ | sign | ⟨_ | _, m, e, large⟩
  · exact nonnegative.elim
  · exact .inr (.inl rfl)
  · exact nonnegative.elim
  · exact .inl ⟨sign, rfl⟩
  · exact nonnegative.elim
  · exact .inr (.inr ⟨m, e, large, rfl⟩)

theorem add_finite {m n : Nat} {e f : Int} (large : 0 < m) (large' : 0 < n) (inside : -1074 ≤ e)
    (inside' : -1074 ≤ f) :
    let sum := UnpackedFloat.add Format.binary64 (.finite .positive m e large)
      (.finite .positive n f large')
    Positive sum ∧ Fitting sum := by
  have left : 0 < (decreaseExponent m e (min e f)).1 := by
    rw [decreaseExponent, Nat.shiftLeft_eq]
    exact Nat.mul_pos large (Nat.two_pow_pos _)
  have total : 0 < ((decreaseExponent m e (min e f)).1 : Int) +
      (decreaseExponent n f (min e f)).1 :=
    Int.add_pos_of_pos_of_nonneg (Int.natCast_pos.2 left) (Int.natCast_nonneg _)
  exact normalize_positive total (le_min inside inside')

theorem add_spec {x y : UnpackedFloat} (fitsLeft : Fitting x) (fitsRight : Fitting y)
    (left : Nonnegative x) (right : Nonnegative y) :
    Nonnegative (x.add Format.binary64 y) ∧ Fitting (x.add Format.binary64 y) ∧
      (Positive x ∨ Positive y → Positive (x.add Format.binary64 y)) := by
  have zero : ∀ sign, Nonnegative (.zero sign) ∧ Fitting (.zero sign) := fun _ => ⟨trivial, trivial⟩
  rcases nonnegative_cases left with ⟨s, rfl⟩ | rfl | ⟨m, e, large, rfl⟩ <;>
    rcases nonnegative_cases right with ⟨s', rfl⟩ | rfl | ⟨n, f, large', rfl⟩
  · refine ⟨?_, ?_, fun some => (some.elim id id).elim⟩
    · cases s <;> cases s' <;> trivial
    · cases s <;> cases s' <;> trivial
  · exact ⟨trivial, trivial, fun _ => trivial⟩
  · exact ⟨trivial, fitsRight, fun _ => trivial⟩
  · exact ⟨trivial, trivial, fun _ => trivial⟩
  · exact ⟨trivial, trivial, fun _ => trivial⟩
  · exact ⟨trivial, trivial, fun _ => trivial⟩
  · exact ⟨trivial, fitsLeft, fun _ => trivial⟩
  · exact ⟨trivial, trivial, fun _ => trivial⟩
  · obtain ⟨positive, fits⟩ := add_finite large large' fitsLeft.2 fitsRight.2
    exact ⟨positive.nonnegative, fits, fun _ => positive⟩

theorem fitting_unpack (b : BitVec Format.binary64.numBits) :
    Fitting (UnpackedFloat.unpack Format.binary64 b) := by
  have bias : (Format.binary64.exponentBias + Format.binary64.mantissaBitsWithoutImplicit : Int) =
      1075 := rfl
  unfold UnpackedFloat.unpack
  dsimp only
  rw [bias]
  split
  · split <;> trivial
  · split
    · split
      · trivial
      · have bound : (unpackMantissa b).toNat < 2 ^ 52 := (unpackMantissa b).isLt
        exact ⟨by omega, by omega⟩
    · next normal =>
      have bound := (1#1 ++ unpackMantissa b).isLt
      have least : (unpackExponent b).toNat ≠ 0 := by
        intro none
        exact normal (BitVec.eq_of_toNat_eq none)
      exact ⟨bound, by omega⟩

-- The three kinds of positive numbers: infinity, the numbers with a leading bit, and those without.
theorem positive_unpack_packComponents {e : BitVec 11} {m : BitVec 52}
    (number : e = -1#11 → m = 0#52) (nonzero : e = 0#11 → m ≠ 0#52) :
    Positive (UnpackedFloat.unpack Format.binary64
      (packComponents Format.binary64 .positive e m)) := by
  unfold UnpackedFloat.unpack
  simp only [unpackMantissa_packComponents, unpackExponent_packComponents,
    unpackSign_packComponents]
  split
  · next last =>
    rw [if_pos (number last)]
    trivial
  · split
    · next first =>
      rw [dif_neg (nonzero first)]
      trivial
    · trivial

theorem positive_unpack_pack {x : UnpackedFloat} (fits : Fitting x) (positive : Positive x) :
    Positive (UnpackedFloat.unpack Format.binary64 (UnpackedFloat.pack Format.binary64 x)) := by
  rcases x with ⟨_ | _⟩ | _ | sign | ⟨_ | _, m, e, large⟩
  · exact positive.elim
  · exact positive_unpack_packComponents (fun _ => rfl) (by decide)
  · exact positive.elim
  · exact positive.elim
  · exact positive.elim
  · have bias : Format.binary64.exponentBias = 1023 := rfl
    obtain ⟨short, inside⟩ := fits
    have bits : m.log2 < 53 := (Nat.log2_lt (Nat.ne_of_gt large)).2 short
    unfold UnpackedFloat.pack
    dsimp only
    rw [bias]
    split
    · exact positive_unpack_packComponents (fun _ => rfl) (by decide)
    · next small =>
      split
      · have exponent : (BitVec.ofNat 11 (e + (1023 : Nat) + (52 : Nat)).toNat).toNat =
            (e + 1075).toNat := by
          rw [BitVec.toNat_ofNat, Nat.mod_eq_of_lt (by omega)]
          omega
        refine positive_unpack_packComponents (fun last => ?_) fun first => ?_
        · have := congrArg BitVec.toNat last
          rw [exponent] at this
          change _ = 2047 at this
          omega
        · have := congrArg BitVec.toNat first
          rw [exponent] at this
          change _ = 0 at this
          omega
      · next subnormal =>
        have mantissa : m < 2 ^ 52 := by
          refine (Nat.log2_lt (Nat.ne_of_gt large)).1 ?_
          change ¬m.log2 + 1 = 53 at subnormal
          omega
        refine positive_unpack_packComponents (fun last => absurd last (by decide)) fun _ none => ?_
        have := congrArg BitVec.toNat none
        rw [BitVec.toNat_ofNat, Nat.mod_eq_of_lt mantissa] at this
        change m = 0 at this
        omega

theorem nonnegative_unpack_pack {x : UnpackedFloat} (fits : Fitting x)
    (nonnegative : Nonnegative x) :
    Nonnegative (UnpackedFloat.unpack Format.binary64 (UnpackedFloat.pack Format.binary64 x)) := by
  rcases nonnegative_cases nonnegative with ⟨sign, rfl⟩ | rfl | ⟨m, e, large, rfl⟩
  · cases sign <;> trivial
  · exact (positive_unpack_pack fits trivial).nonnegative
  · exact (positive_unpack_pack fits trivial).nonnegative

theorem unpack_add (x y : Float) :
    (x + y).toModel.unpack = UnpackedFloat.unpack Format.binary64 (UnpackedFloat.pack
      Format.binary64 (x.toModel.unpack.add Format.binary64 y.toModel.unpack)) :=
  rfl

instance : Scalar.Additive Float where
  add_nonneg x y left right := by
    obtain ⟨nonnegative, fits, -⟩ := add_spec (fitting_unpack _) (fitting_unpack _)
      ((zero_le_iff x).1 left) ((zero_le_iff y).1 right)
    refine (zero_le_iff (x + y)).2 ?_
    rw [unpack_add]
    exact nonnegative_unpack_pack fits nonnegative
  add_pos x y left right some := by
    obtain ⟨-, fits, positive⟩ := add_spec (fitting_unpack _) (fitting_unpack _)
      ((zero_le_iff x).1 left) ((zero_le_iff y).1 right)
    have above := positive (some.imp (zero_lt_iff x).1 (zero_lt_iff y).1)
    refine (zero_lt_iff (x + y)).2 ?_
    rw [unpack_add]
    exact positive_unpack_pack fits above
  not_le_of_pos x positive := not_le_zero x ((zero_lt_iff x).1 positive)

instance : Scalar.Comparable Float where
  lt_zero_iff x finite := by
    have known : x.toModel.unpack.isFinite = true := finite
    have below : Scalar.lt x Zero.zero = true ↔
        x.toModel.unpack.lt (UnpackedFloat.zero .positive) = true :=
      decide_eq_true_iff
    change Scalar.lt x Zero.zero = true ↔ Scalar.le Zero.zero x = false
    rw [Bool.eq_false_iff, Ne, zero_le_iff, below]
    revert known
    rcases x.toModel.unpack with ⟨_ | _⟩ | _ | ⟨_ | _⟩ | ⟨_ | _, m, e, _⟩ <;>
      simp [UnpackedFloat.lt, UnpackedFloat.compare, UnpackedFloat.isFinite, Nonnegative, Positive]

theorem le_zero_iff (x : Float) :
    Scalar.le x Zero.zero = true ↔ x.toModel.unpack.le (.zero .positive) = true :=
  decide_eq_true_iff

theorem same_zero_iff (x : Float) :
    Scalar.Same x Zero.zero ↔ ∃ sign, x.toModel.unpack = .zero sign := by
  constructor
  · rintro (rfl | ⟨below, above⟩)
    · exact ⟨.positive, rfl⟩
    · rw [le_zero_iff] at below
      rw [zero_le_iff] at above
      revert below above
      rcases x.toModel.unpack with ⟨_ | _⟩ | _ | ⟨_ | _⟩ | ⟨_ | _, m, e, _⟩ <;>
        simp [UnpackedFloat.le, UnpackedFloat.compare, Nonnegative, Positive]
  · rintro ⟨sign, zero⟩
    refine .inr ⟨(le_zero_iff x).2 ?_, (zero_le_iff x).2 ?_⟩ <;> rw [zero]
    · cases sign <;> rfl
    · trivial

instance : Scalar.Vanishing Float where
  add_zeros x y left right := by
    obtain ⟨sign, zero⟩ := (same_zero_iff x).1 left
    obtain ⟨sign', zero'⟩ := (same_zero_iff y).1 right
    refine (same_zero_iff (x + y)).2 ?_
    rw [unpack_add, zero, zero']
    cases sign <;> cases sign' <;> exact ⟨_, rfl⟩
  le_zero_of_not_pos x finite none := by
    have known : x.toModel.unpack.isFinite = true := finite
    have above : ¬Positive x.toModel.unpack := by
      rw [← zero_lt_iff]
      exact ne_of_eq_of_ne none Bool.false_ne_true
    refine (le_zero_iff x).2 ?_
    revert known above
    rcases x.toModel.unpack with ⟨_ | _⟩ | _ | ⟨_ | _⟩ | ⟨_ | _, m, e, _⟩ <;>
      simp [UnpackedFloat.le, UnpackedFloat.compare, UnpackedFloat.isFinite, Positive]

theorem pack_unpack_eq (x : Float) : Float.ofModel (pack x.toModel.unpack) = x := by
  obtain ⟨⟨⟨b⟩, valid⟩⟩ := x
  have packed : UnpackedFloat.pack Format.binary64 (UnpackedFloat.unpack Format.binary64 b) = b :=
    pack_unpack_of_valid valid
  simp only [Float.Model.pack, Float.Model.unpack, packed]

theorem zero_add_eq (x : Float) (signed : x.toModel.unpack ≠ .zero .negative) :
    Zero.zero + x = x := by
  have same : UnpackedFloat.add Format.binary64 (.zero .positive) x.toModel.unpack =
      x.toModel.unpack := by
    revert signed
    rcases x.toModel.unpack with ⟨_ | _⟩ | _ | ⟨_ | _⟩ | ⟨_ | _, m, e, _⟩ <;>
      simp [UnpackedFloat.add]
  have sum : Zero.zero + x = Float.ofModel (pack
      (UnpackedFloat.add Format.binary64 (.zero .positive) x.toModel.unpack)) := rfl
  rw [sum, same, pack_unpack_eq]

instance : Scalar.Unital Float where
  zero_add_same x := by
    by_cases signed : x.toModel.unpack = .zero .negative
    · have sum : (Zero.zero + x).toModel.unpack = .zero .positive := by
        rw [unpack_add, signed]
        rfl
      refine .inr ⟨decide_eq_true ?_, decide_eq_true ?_⟩
      · change (Zero.zero + x).toModel.unpack.le x.toModel.unpack = true
        rw [sum, signed]
        rfl
      · change x.toModel.unpack.le (Zero.zero + x).toModel.unpack = true
        rw [sum, signed]
        rfl
    · exact .inl (zero_add_eq x signed)

end Horizon.Binary64
