import Horizon.Proofs.Binary64

/-! Rounding in binary64.

A number is rounded to the nearest one that has 53 significant bits and a last place of at least
`2 ^ (-1074)`, and to the even one of two that are as near. A greater number is not rounded to a
smaller one, and those with so few bits are kept. Shifts of a significand that hold what they drop
in two bits, and round it afterwards, come to the same.
-/

set_option autoImplicit false

namespace Horizon.Binary64

def nearest (q : ℚ) : ℤ :=
  if 2 * Int.fract q < 1 then ⌊q⌋
  else if 1 < 2 * Int.fract q then ⌊q⌋ + 1
  else ⌊q⌋ + ⌊q⌋ % 2

theorem floor_le_nearest (q : ℚ) : ⌊q⌋ ≤ nearest q := by
  unfold nearest
  split_ifs <;> omega

theorem nearest_le_floor_add_one (q : ℚ) : nearest q ≤ ⌊q⌋ + 1 := by
  unfold nearest
  split_ifs <;> omega

@[simp] theorem nearest_intCast (n : ℤ) : nearest n = n := by
  simp [nearest]

@[simp] theorem nearest_two_pow (n : Nat) : nearest (2 ^ n) = 2 ^ n := by
  exact_mod_cast nearest_intCast (2 ^ n)

theorem nearest_mono {q r : ℚ} (ordered : q ≤ r) : nearest q ≤ nearest r := by
  rcases (Int.floor_mono ordered).lt_or_eq with below | same
  · exact (nearest_le_floor_add_one q).trans (below.trans_le (floor_le_nearest r))
  · have fractions : Int.fract q ≤ Int.fract r := by
      rw [Int.fract, Int.fract, same]
      exact sub_le_sub_right ordered _
    unfold nearest
    rw [same]
    split_ifs <;> first | omega | linarith

def lastPlace (q : ℚ) : ℤ :=
  max (Int.log 2 q - 52) (-1074)

/-- The nearest number with a significand of 53 bits, if its exponent is not limited above. -/
def rounded (q : ℚ) : ℚ :=
  nearest (q / 2 ^ lastPlace q) * 2 ^ lastPlace q

theorem lastPlace_mono {q r : ℚ} (positive : 0 < q) (ordered : q ≤ r) :
    lastPlace q ≤ lastPlace r :=
  max_le_max_right _ (sub_le_sub_right (Int.log_mono_right positive ordered) _)

theorem two_zpow_pos (e : ℤ) : (0 : ℚ) < 2 ^ e :=
  zpow_pos two_pos e

theorem two_pow_mul_zpow (n : Nat) (e : ℤ) : (2 : ℚ) ^ n * 2 ^ e = 2 ^ (n + e) := by
  rw [zpow_add₀ two_ne_zero, zpow_natCast]

theorem scaled_lt {q : ℚ} {n : Nat} (below : q < 2 ^ n) (e : ℤ) : q * 2 ^ e < 2 ^ (n + e) := by
  rw [← two_pow_mul_zpow]
  exact mul_lt_mul_of_pos_right below (two_zpow_pos e)

theorem scaled_le {q : ℚ} {n : Nat} (below : q ≤ 2 ^ n) (e : ℤ) : q * 2 ^ e ≤ 2 ^ (n + e) := by
  rw [← two_pow_mul_zpow]
  exact mul_le_mul_of_nonneg_right below (two_zpow_pos e).le

theorem le_scaled {q : ℚ} {n : Nat} (above : 2 ^ n ≤ q) (e : ℤ) : 2 ^ (n + e) ≤ q * 2 ^ e := by
  rw [← two_pow_mul_zpow]
  exact mul_le_mul_of_nonneg_right above (two_zpow_pos e).le

theorem div_lastPlace_lt (q : ℚ) : q / 2 ^ lastPlace q < 2 ^ 53 := by
  have above : q < 2 ^ (Int.log 2 q + 1) := Int.lt_zpow_succ_log_self one_lt_two q
  rw [div_lt_iff₀ (two_zpow_pos _)]
  calc q < 2 ^ (Int.log 2 q + 1) := above
    _ ≤ 2 ^ (53 + lastPlace q) :=
      zpow_le_zpow_right₀ one_le_two (by rw [lastPlace]; omega)
    _ = 2 ^ 53 * 2 ^ lastPlace q := (two_pow_mul_zpow 53 _).symm

theorem le_div_lastPlace {q : ℚ} (positive : 0 < q) (normal : -1074 < lastPlace q) :
    2 ^ 52 ≤ q / 2 ^ lastPlace q := by
  have least : (2 : ℚ) ^ Int.log 2 q ≤ q := Int.zpow_log_le_self one_lt_two positive
  rw [le_div_iff₀ (two_zpow_pos _)]
  calc (2 : ℚ) ^ 52 * 2 ^ lastPlace q = 2 ^ (52 + lastPlace q) := two_pow_mul_zpow 52 _
    _ ≤ 2 ^ Int.log 2 q := zpow_le_zpow_right₀ one_le_two (by rw [lastPlace] at normal ⊢; omega)
    _ ≤ q := least

theorem nearest_lastPlace_le (q : ℚ) :
    nearest (q / 2 ^ lastPlace q) ≤ 2 ^ 53 := by
  rw [← nearest_two_pow 53]
  exact nearest_mono (div_lastPlace_lt q).le

theorem le_nearest_lastPlace {q : ℚ} (positive : 0 < q) (normal : -1074 < lastPlace q) :
    2 ^ 52 ≤ nearest (q / 2 ^ lastPlace q) := by
  rw [← nearest_two_pow 52]
  exact nearest_mono (le_div_lastPlace positive normal)

theorem rounded_nonneg {q : ℚ} (nonneg : 0 ≤ q) : 0 ≤ rounded q := by
  have whole : 0 ≤ ⌊q / 2 ^ lastPlace q⌋ :=
    Int.floor_nonneg.2 (div_nonneg nonneg (two_zpow_pos _).le)
  have kept := whole.trans (floor_le_nearest _)
  exact mul_nonneg (by exact_mod_cast kept) (two_zpow_pos _).le

@[simp] theorem rounded_zero : rounded 0 = 0 := by
  have none : nearest 0 = 0 := by exact_mod_cast nearest_intCast 0
  simp [rounded, none]

-- With different last places, a power of two lies between the numbers and is kept by rounding.
theorem rounded_mono_of_pos {q r : ℚ} (positive : 0 < q) (ordered : q ≤ r) :
    rounded q ≤ rounded r := by
  have positive' := positive.trans_le ordered
  unfold rounded
  rcases (lastPlace_mono positive ordered).lt_or_eq with before | same
  · have lower : (nearest (q / 2 ^ lastPlace q) : ℚ) ≤ 2 ^ 53 := by
      exact_mod_cast nearest_lastPlace_le q
    have upper : (2 : ℚ) ^ 52 ≤ nearest (r / 2 ^ lastPlace r) := by
      exact_mod_cast le_nearest_lastPlace positive' ((le_max_right _ _).trans_lt before)
    calc (nearest (q / 2 ^ lastPlace q) : ℚ) * 2 ^ lastPlace q
      _ ≤ 2 ^ (53 + lastPlace q) := scaled_le lower _
      _ ≤ 2 ^ (52 + lastPlace r) := zpow_le_zpow_right₀ one_le_two (by omega)
      _ ≤ nearest (r / 2 ^ lastPlace r) * 2 ^ lastPlace r := le_scaled upper _
  · rw [same]
    have scaled := div_le_div_of_nonneg_right ordered (two_zpow_pos (lastPlace r)).le
    exact mul_le_mul_of_nonneg_right (by exact_mod_cast nearest_mono scaled) (two_zpow_pos _).le

theorem rounded_mono {q r : ℚ} (nonneg : 0 ≤ q) (ordered : q ≤ r) : rounded q ≤ rounded r := by
  rcases nonneg.eq_or_lt with rfl | positive
  · rw [rounded_zero]
    exact rounded_nonneg ordered
  · exact rounded_mono_of_pos positive ordered

theorem rounded_of_short {m : Nat} {e : ℤ} (short : m < 2 ^ 53) (inside : -1074 ≤ e) :
    rounded (m * 2 ^ e) = m * 2 ^ e := by
  rcases Nat.eq_zero_or_pos m with rfl | large
  · simp
  have positive : (0 : ℚ) < m * 2 ^ e := mul_pos (by exact_mod_cast large) (two_zpow_pos e)
  have place : lastPlace (m * 2 ^ e) ≤ e := by
    have below : (m : ℚ) * 2 ^ e < 2 ^ (53 + e) := scaled_lt (by exact_mod_cast short) e
    have log := (Int.lt_zpow_iff_log_lt one_lt_two positive).1 below
    rw [lastPlace]
    omega
  obtain ⟨k, split⟩ := Int.eq_ofNat_of_zero_le (sub_nonneg.2 place)
  have scaled : (m : ℚ) * 2 ^ e / 2 ^ lastPlace (m * 2 ^ e) = (m * 2 ^ k : ℤ) := by
    rw [mul_div_assoc, ← zpow_sub₀ two_ne_zero, split]
    simp
  rw [rounded, scaled, nearest_intCast, ← scaled, div_mul_cancel₀ _ (two_zpow_pos _).ne']

theorem rounded_eq_self {m : Nat} {e : ℤ} (short : m ≤ 2 ^ 53) (inside : -1074 ≤ e) :
    rounded (m * 2 ^ e) = m * 2 ^ e := by
  rcases short.lt_or_eq with short | rfl
  · exact rounded_of_short short inside
  · have half : ((2 ^ 53 : Nat) : ℚ) * 2 ^ e = (2 ^ 52 : Nat) * 2 ^ (e + 1) := by
      rw [zpow_add_one₀ two_ne_zero]
      push_cast
      ring
    rw [half]
    exact rounded_of_short (by decide) (by omega)

theorem lt_rounded {m : Nat} {e : ℤ} (short : m < 2 ^ 53) (full : 2 ^ 52 ≤ m) (inside : -1074 ≤ e)
    {q : ℚ} (grown : m * 2 ^ e * (1 + 2 ^ (-52 : ℤ)) ≤ q) : m * 2 ^ e < rounded q := by
  have full' : (2 : ℚ) ^ 52 ≤ m := by exact_mod_cast full
  have next : (((m + 1 : Nat) : ℚ) * 2 ^ e) ≤ q := by
    refine le_trans ?_ grown
    have unit : (1 : ℚ) ≤ m * 2 ^ (-52 : ℤ) := by
      rw [zpow_neg, ← div_eq_mul_inv, one_le_div (two_zpow_pos _)]
      exact_mod_cast full'
    calc ((m + 1 : Nat) : ℚ) * 2 ^ e = m * 2 ^ e + 1 * 2 ^ e := by push_cast; ring
      _ ≤ m * 2 ^ e + m * 2 ^ (-52 : ℤ) * 2 ^ e :=
        add_le_add_right (mul_le_mul_of_nonneg_right unit (two_zpow_pos e).le) _
      _ = m * 2 ^ e * (1 + 2 ^ (-52 : ℤ)) := by ring
  calc (m : ℚ) * 2 ^ e < (m + 1 : Nat) * 2 ^ e :=
        mul_lt_mul_of_pos_right (by exact_mod_cast Nat.lt_succ_self m) (two_zpow_pos e)
    _ = rounded ((m + 1 : Nat) * 2 ^ e) := (rounded_eq_self short inside).symm
    _ ≤ rounded q := rounded_mono (mul_nonneg (Nat.cast_nonneg _) (two_zpow_pos e).le) next

open Float.Model UnpackedFloat

/-- The number is its mantissa and less than a unit of its last bit, which the residual bits hold
against half a unit. -/
def StandsFor (x : ExtendedMantissa) (q : ℚ) : Prop :=
  match x.accuracy with
  | .exact => q = x.mantissa
  | .inexact .lt => x.mantissa < q ∧ q < x.mantissa + 1 / 2
  | .inexact .eq => q = x.mantissa + 1 / 2
  | .inexact .gt => x.mantissa + 1 / 2 < q ∧ q < x.mantissa + 1

theorem StandsFor.floor_eq {x : ExtendedMantissa} {q : ℚ} (same : StandsFor x q) :
    ⌊q⌋ = x.mantissa := by
  obtain ⟨m, round, sticky⟩ := x
  rw [Int.floor_eq_iff]
  cases round <;> cases sticky <;>
    simp only [StandsFor, ExtendedMantissa.accuracy, Int.cast_natCast] at same ⊢ <;>
    constructor <;> linarith

theorem StandsFor.roundedMantissa_eq {x : ExtendedMantissa} {q : ℚ} (same : StandsFor x q) :
    (x.roundedMantissa : ℤ) = nearest q := by
  have floor := same.floor_eq
  have fraction : Int.fract q = q - x.mantissa := by rw [Int.fract, floor, Int.cast_natCast]
  rw [nearest, floor, fraction]
  obtain ⟨m, round, sticky⟩ := x
  cases round <;> cases sticky <;>
    simp only [StandsFor, ExtendedMantissa.accuracy, ExtendedMantissa.roundedMantissa,
      Accuracy.roundToNearestEven] at same ⊢ <;>
    split_ifs <;> first | omega | linarith

theorem StandsFor.shiftRightOne {x : ExtendedMantissa} {q : ℚ} (same : StandsFor x q) :
    StandsFor x.shiftRightOne (q / 2) := by
  obtain ⟨m, round, sticky⟩ := x
  have split : (m : ℚ) = 2 * (m / 2 : Nat) + (m % 2 : Nat) := by
    exact_mod_cast (Nat.div_add_mod m 2).symm
  rcases Nat.mod_two_eq_zero_or_one m with last | last <;> cases round <;> cases sticky <;>
    simp [StandsFor, ExtendedMantissa.accuracy, ExtendedMantissa.shiftRightOne, last]
      at same split ⊢ <;>
    first | linarith | (constructor <;> linarith)

theorem StandsFor.shiftRight {x : ExtendedMantissa} {q : ℚ} (same : StandsFor x q) (k : Nat) :
    StandsFor (x >>> k) (q / 2 ^ k) := by
  induction k with
  | zero => simpa [show x >>> 0 = x from rfl] using same
  | succ k ih =>
    rw [pow_succ, ← div_div]
    exact ih.shiftRightOne

theorem div_eq_add_rest (n : Nat) {d : Nat} (positive : 0 < d) :
    (n : ℚ) / d = (n / d : Nat) + (n % d : Nat) / d := by
  have size : (d : ℚ) ≠ 0 := by exact_mod_cast positive.ne'
  rw [eq_comm, add_div' _ _ _ size, mul_comm]
  exact_mod_cast congrArg (fun k : Nat => (k : ℚ) / d) (Nat.div_add_mod n d)

theorem rest_div_lt_one (n : Nat) {d : Nat} (positive : 0 < d) : ((n % d : Nat) : ℚ) / d < 1 := by
  rw [div_lt_one (by exact_mod_cast positive)]
  exact_mod_cast Nat.mod_lt n positive

theorem standsFor_div (n : Nat) {d : Nat} (positive : 0 < d) :
    StandsFor (.ofMantissaAndAccuracy (n / d) (accuracyOfFraction (n % d) d)) (n / d) := by
  have size : (0 : ℚ) < d := by exact_mod_cast positive
  have below := rest_div_lt_one n positive
  rw [div_eq_add_rest n positive, accuracyOfFraction]
  split_ifs with exact
  · simp [StandsFor, ExtendedMantissa.accuracy, ExtendedMantissa.ofMantissaAndAccuracy, exact]
  · have some : (0 : ℚ) < (n % d : Nat) / d :=
      div_pos (by exact_mod_cast Nat.pos_of_ne_zero exact) size
    rcases order : compare (2 * (n % d)) d with _ | _ | _ <;>
      simp only [StandsFor, ExtendedMantissa.accuracy, ExtendedMantissa.ofMantissaAndAccuracy]
    · have half : ((n % d : Nat) : ℚ) / d < 1 / 2 := by
        rw [div_lt_div_iff₀ size two_pos, one_mul, mul_comm]
        exact_mod_cast Nat.compare_eq_lt.1 order
      constructor <;> linarith
    · have half : ((n % d : Nat) : ℚ) / d = 1 / 2 := by
        rw [div_eq_div_iff size.ne' two_ne_zero, one_mul, mul_comm]
        exact_mod_cast Nat.compare_eq_eq.1 order
      linarith
    · have half : 1 / 2 < ((n % d : Nat) : ℚ) / d := by
        rw [div_lt_div_iff₀ two_pos size, one_mul, mul_comm]
        exact_mod_cast Nat.compare_eq_gt.1 order
      constructor <;> linarith

def UnsignedForm : UnpackedFloat → Prop
  | .zero .positive => True
  | .infinity .positive => True
  | .finite .positive m e _ => m < 2 ^ 53 ∧ -1074 ≤ e ∧ (2 ^ 52 ≤ m ∨ e = -1074)
  | _ => False

def limit : ℚ :=
  2 ^ (1024 : ℤ)

theorem two_pow_lt_limit {n : Nat} (small : n < 1024) : (2 : ℚ) ^ n < limit := by
  rw [limit, ← zpow_natCast]
  exact zpow_lt_zpow_right₀ one_lt_two (by omega)

theorem one_lt_limit : 1 < limit :=
  one_lt_zpow₀ one_lt_two (by decide)

/-- The exact value of a number whose sign bit is not set, where infinity counts as the limit. -/
def worth : UnpackedFloat → ℚ
  | .finite _ m e _ => m * 2 ^ e
  | .infinity _ => limit
  | _ => 0

theorem lt_of_floor_eq {q : ℚ} {m : Nat} {e : ℤ} (floor : ⌊q / 2 ^ e⌋ = m) :
    m * 2 ^ e ≤ q ∧ q < (m + 1 : Nat) * 2 ^ e := by
  obtain ⟨below, above⟩ := Int.floor_eq_iff.1 floor
  rw [le_div_iff₀ (two_zpow_pos e)] at below
  rw [div_lt_iff₀ (two_zpow_pos e)] at above
  exact ⟨by exact_mod_cast below, by exact_mod_cast above⟩

theorem log_eq_of_floor_eq {q : ℚ} {m : Nat} (large : 0 < m) {e : ℤ} (floor : ⌊q / 2 ^ e⌋ = m) :
    Int.log 2 q = m.log2 + e := by
  obtain ⟨below, above⟩ := lt_of_floor_eq floor
  have least : (2 : ℚ) ^ m.log2 ≤ m := by exact_mod_cast Nat.log2_self_le large.ne'
  have most : ((m + 1 : Nat) : ℚ) ≤ 2 ^ (m.log2 + 1) := by exact_mod_cast Nat.lt_log2_self
  have lower : (2 : ℚ) ^ (m.log2 + e) ≤ q := (le_scaled least e).trans below
  have upper : q < (2 : ℚ) ^ ((m.log2 + 1 : Nat) + e) := above.trans_le (scaled_le most e)
  have positive : 0 < q := (two_zpow_pos _).trans_le lower
  have first := (Int.zpow_le_iff_le_log one_lt_two positive).1 lower
  have second := (Int.lt_zpow_iff_log_lt one_lt_two positive).1 upper
  omega

theorem targetExponent_eq {q : ℚ} (positive : 0 < q) {m : Nat} {e : ℤ} (floor : ⌊q / 2 ^ e⌋ = m)
    (early : e ≤ lastPlace q) :
    Format.binary64.targetExponent (totalExponent m e) = lastPlace q := by
  rw [targetExponent_binary64, totalExponent]
  rcases Nat.eq_zero_or_pos m with rfl | large
  · have below : q < 2 ^ e := by simpa using (lt_of_floor_eq floor).2
    have log := (Int.lt_zpow_iff_log_lt one_lt_two positive).1 below
    rw [lastPlace] at early ⊢
    simp only [Nat.log2_zero]
    omega
  · rw [lastPlace, log_eq_of_floor_eq large floor]
    omega

theorem shiftToTargetExponent_eq {q : ℚ} (positive : 0 < q) {m : Nat} {e : ℤ} {accuracy : Accuracy}
    (same : StandsFor (.ofMantissaAndAccuracy m accuracy) (q / 2 ^ e)) (early : e ≤ lastPlace q) :
    ∃ x, shiftToTargetExponent Format.binary64 m e accuracy = (x, lastPlace q) ∧
      StandsFor x (q / 2 ^ lastPlace q) := by
  have floor : ⌊q / 2 ^ e⌋ = m := by rw [same.floor_eq, mantissa_ofMantissaAndAccuracy]
  obtain ⟨k, later⟩ := Int.eq_ofNat_of_zero_le (sub_nonneg.2 early)
  have shifted := same.shiftRight k
  rw [div_div, mul_comm, two_pow_mul_zpow, show (k : ℤ) + e = lastPlace q by omega] at shifted
  refine ⟨_, ?_, shifted⟩
  rw [shiftToTargetExponent, targetExponent_eq positive floor early, shiftToExponent, later]
  exact congrArg (Prod.mk _) (by omega)

theorem shiftToTargetExponent_short {m : Nat} {e : ℤ} (short : m < 2 ^ 53) (inside : -1074 ≤ e) :
    shiftToTargetExponent Format.binary64 m e .exact = (⟨m, false, false⟩, e) := by
  have bits : m.log2 ≤ 52 := by
    rcases Nat.eq_zero_or_pos m with rfl | large
    · simp
    · have := (Nat.log2_lt large.ne').2 short
      omega
  have none : (Format.binary64.targetExponent (totalExponent m e) - e).toNat = 0 := by
    rw [targetExponent_binary64, totalExponent]
    omega
  rw [shiftToTargetExponent, shiftToExponent, none]
  exact congrArg (Prod.mk _) (add_zero e)

theorem shiftToTargetExponent_carry {e : ℤ} (inside : -1074 ≤ e) :
    shiftToTargetExponent Format.binary64 (2 ^ 53) e .exact = (⟨2 ^ 52, false, false⟩, e + 1) := by
  have one : (Format.binary64.targetExponent (totalExponent (2 ^ 53) e) - e).toNat = 1 := by
    rw [targetExponent_binary64, totalExponent, Nat.log2_two_pow]
    omega
  rw [shiftToTargetExponent, shiftToExponent, one]
  rfl

theorem roundWithAccuracy_spec {q : ℚ} (positive : 0 < q) {m : Nat} {e : ℤ} {accuracy : Accuracy}
    (same : StandsFor (.ofMantissaAndAccuracy m accuracy) (q / 2 ^ e)) (early : e ≤ lastPlace q) :
    UnsignedForm (roundWithAccuracy Format.binary64 .positive m e accuracy) ∧
      worth (roundWithAccuracy Format.binary64 .positive m e accuracy) = rounded q := by
  obtain ⟨x, shifted, standing⟩ := shiftToTargetExponent_eq positive same early
  have inside : -1074 ≤ lastPlace q := le_max_right _ _
  have least : 2 ^ 52 ≤ x.roundedMantissa ∨ lastPlace q = -1074 := by
    refine inside.lt_or_eq.imp (fun normal => ?_) Eq.symm
    exact_mod_cast standing.roundedMantissa_eq ▸ le_nearest_lastPlace positive normal
  have most : x.roundedMantissa ≤ 2 ^ 53 := by
    exact_mod_cast standing.roundedMantissa_eq ▸ nearest_lastPlace_le q
  have value : rounded q = x.roundedMantissa * 2 ^ lastPlace q := by
    rw [rounded, ← standing.roundedMantissa_eq, Int.cast_natCast]
  rw [roundWithAccuracy, shifted, value]
  dsimp only
  rcases most.lt_or_eq with short | carry
  · rw [shiftToTargetExponent_short short inside]
    dsimp only
    split_ifs with zero
    · simp [UnsignedForm, worth, zero]
    · exact ⟨⟨short, inside, least⟩, rfl⟩
  · rw [carry, shiftToTargetExponent_carry inside]
    dsimp only
    rw [dif_neg (by decide)]
    refine ⟨⟨by decide, by omega, .inl le_rfl⟩, ?_⟩
    simp only [worth, Nat.cast_pow, Nat.cast_ofNat, two_pow_mul_zpow]
    congr 1
    ring

end Horizon.Binary64
