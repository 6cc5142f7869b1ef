import Horizon.Proofs.Rounding

/-! The exact values of binary64 numbers whose sign bit is not set.

A sum, a product, a quotient and a converted natural number have the rounded exact value, unless
that is too large, which gives infinity. Comparisons and the conversion to an unsigned integer,
which rounds up, are those of the exact values.
-/

set_option autoImplicit false

namespace Horizon

namespace Number

def Magnitude.value (m : Magnitude) : ℚ :=
  m.significand * 2 ^ m.exponent

theorem ceil_div (n : Nat) {d : Nat} (positive : 0 < d) :
    ⌈(n : ℚ) / d⌉ = if n % d = 0 then (n / d : Nat) else (n / d + 1 : Nat) := by
  rw [Binary64.div_eq_add_rest n positive, Int.ceil_natCast_add]
  split_ifs with exact
  · simp [exact]
  · have rest : ⌈((n % d : Nat) : ℚ) / d⌉ = 1 := by
      rw [Int.ceil_eq_iff]
      have below := Binary64.rest_div_lt_one n positive
      have some : (0 : ℚ) < (n % d : Nat) / d :=
        div_pos (by exact_mod_cast Nat.pos_of_ne_zero exact) (by exact_mod_cast positive)
      constructor
      · simpa using some
      · simpa using below.le
    rw [rest]
    norm_cast

theorem Magnitude.ceil_value (m : Magnitude) :
    (if m.split.2 then m.split.1 + 1 else m.split.1 : Nat) = ⌈m.value⌉ := by
  obtain ⟨n, e⟩ := m
  cases e with
  | ofNat e =>
    have whole : Magnitude.value ⟨n, .ofNat e⟩ = (n <<< e : Nat) := by
      simp [Magnitude.value, Nat.shiftLeft_eq]
    rw [whole, Int.ceil_natCast]
    rfl
  | negSucc e =>
    have unit : Magnitude.value ⟨n, .negSucc e⟩ = n / (1 <<< (e + 1) : Nat) := by
      simp [Magnitude.value, Nat.shiftLeft_eq, zpow_negSucc, div_eq_mul_inv]
    rw [unit, ceil_div n (by simp [Nat.shiftLeft_eq])]
    by_cases exact : n % 1 <<< (e + 1) = 0 <;> simp [Magnitude.split, exact]

end Number

namespace Binary64

open Float.Model UnpackedFloat

theorem append_leading (fraction : BitVec 52) :
    (1#1 ++ fraction).toNat = 2 ^ 52 + fraction.toNat := by
  rw [BitVec.toNat_append, ← Nat.shiftLeft_add_eq_or_of_lt fraction.isLt]
  rfl

theorem unpack_normal {m : Nat} {e : ℤ} {large : 0 < m} (short : m < 2 ^ 53) (full : 2 ^ 52 ≤ m)
    (inside : -1074 ≤ e) (bounded : e ≤ 971) :
    UnpackedFloat.unpack Format.binary64 (packComponents Format.binary64 .positive
      (BitVec.ofNat 11 (e + 1075).toNat) (BitVec.ofNat 52 m)) = .finite .positive m e large := by
  have exponent : (BitVec.ofNat 11 (e + 1075).toNat).toNat = (e + 1075).toNat := by
    rw [BitVec.toNat_ofNat, Nat.mod_eq_of_lt (by omega)]
  unfold UnpackedFloat.unpack
  simp only [unpackMantissa_packComponents, unpackExponent_packComponents,
    unpackSign_packComponents, Sign.ofBitVec_toBitVec]
  rw [if_neg, if_neg]
  · congr 1
    · rw [append_leading, BitVec.toNat_ofNat]
      omega
    · rw [exponent]
      change ((e + 1075).toNat : ℤ) - 1075 = e
      omega
  · intro zero
    have := congrArg BitVec.toNat zero
    rw [exponent, BitVec.toNat_zero] at this
    omega
  · intro ones
    have := congrArg BitVec.toNat ones
    rw [exponent] at this
    change _ = 2047 at this
    omega

theorem unpack_subnormal {m : Nat} {large : 0 < m} (short : m < 2 ^ 52) :
    UnpackedFloat.unpack Format.binary64 (packComponents Format.binary64 .positive 0#11
      (BitVec.ofNat 52 m)) = .finite .positive m (-1074) large := by
  have fraction : (BitVec.ofNat 52 m).toNat = m := by
    rw [BitVec.toNat_ofNat, Nat.mod_eq_of_lt short]
  unfold UnpackedFloat.unpack
  simp only [unpackMantissa_packComponents, unpackExponent_packComponents,
    unpackSign_packComponents, Sign.ofBitVec_toBitVec]
  rw [if_neg (by decide), if_pos trivial, dif_neg]
  · congr 1
  · intro zero
    have := congrArg BitVec.toNat zero
    rw [fraction, BitVec.toNat_zero] at this
    omega

theorem unpack_pack_finite {m : Nat} {e : ℤ} {large : 0 < m}
    (unsigned : UnsignedForm (.finite .positive m e large)) (bounded : e ≤ 971) :
    UnpackedFloat.unpack Format.binary64 (UnpackedFloat.pack Format.binary64
      (.finite .positive m e large)) = .finite .positive m e large := by
  obtain ⟨short, inside, least⟩ := unsigned
  have bits : m.log2 + 1 = Format.binary64.mantissaBits ↔ 2 ^ 52 ≤ m := by
    change m.log2 + 1 = 53 ↔ _
    have most := (Nat.log2_lt large.ne').2 short
    rw [← Nat.le_log2 large.ne']
    omega
  have place : (e + Format.binary64.exponentBias + (52 : Nat) : ℤ) = e + 1075 :=
    add_assoc e 1023 52
  unfold UnpackedFloat.pack
  dsimp only
  rw [place, if_neg (by omega)]
  by_cases full : 2 ^ 52 ≤ m
  · rw [if_pos (bits.2 full)]
    exact unpack_normal short full inside bounded
  · obtain rfl := least.resolve_left full
    rw [if_neg (mt bits.1 full)]
    exact unpack_subnormal (by omega)

theorem unsigned_cases {x : UnpackedFloat} (unsigned : UnsignedForm x) :
    x = .zero .positive ∨ x = .infinity .positive ∨
      ∃ m e large, x = .finite .positive m e large := by
  rcases x with ⟨_ | _⟩ | _ | ⟨_ | _⟩ | ⟨_ | _, m, e, large⟩
  · exact unsigned.elim
  · exact .inr (.inl rfl)
  · exact unsigned.elim
  · exact unsigned.elim
  · exact .inl rfl
  · exact unsigned.elim
  · exact .inr (.inr ⟨m, e, large, rfl⟩)

@[simp] theorem worth_zero (sign : Sign) : worth (.zero sign) = 0 :=
  rfl

theorem worth_nonneg (x : UnpackedFloat) : 0 ≤ worth x := by
  cases x with
  | infinity sign => exact (two_zpow_pos _).le
  | finite sign m e large => exact mul_nonneg m.cast_nonneg (two_zpow_pos e).le
  | zero sign => rfl
  | notANumber => rfl

theorem unpack_packedInfinity :
    UnpackedFloat.unpack Format.binary64 (packedInfinity Format.binary64 .positive) =
      .infinity .positive :=
  rfl

theorem unpack_pack_overflow {m : Nat} {e : ℤ} {large : 0 < m} (overflow : 971 < e) :
    UnpackedFloat.unpack Format.binary64 (UnpackedFloat.pack Format.binary64
      (.finite .positive m e large)) = .infinity .positive := by
  have above : 2 ^ 11 ≤ (e + Format.binary64.exponentBias + (52 : Nat) : ℤ).toNat + 1 := by
    change 2 ^ 11 ≤ (e + (1023 : Nat) + (52 : Nat) : ℤ).toNat + 1
    omega
  rw [UnpackedFloat.pack]
  dsimp only
  rw [if_pos above, unpack_packedInfinity]

theorem worth_lt_limit {m : Nat} {e : ℤ} {large : 0 < m}
    (unsigned : UnsignedForm (.finite .positive m e large)) (bounded : e ≤ 971) :
    worth (.finite .positive m e large) < limit := by
  have short : (m : ℚ) < 2 ^ 53 := by exact_mod_cast unsigned.1
  calc (m : ℚ) * 2 ^ e < 2 ^ (53 + e) := scaled_lt short e
    _ ≤ limit := zpow_le_zpow_right₀ one_le_two (by omega)

theorem unpack_pack_zero (sign : Sign) :
    UnpackedFloat.unpack Format.binary64 (UnpackedFloat.pack Format.binary64 (.zero sign)) =
      .zero sign := by
  rw [UnpackedFloat.pack, unpack_packedZero]

theorem unpack_pack {x : UnpackedFloat} (unsigned : UnsignedForm x) :
    UnsignedForm (UnpackedFloat.unpack Format.binary64 (UnpackedFloat.pack Format.binary64 x)) ∧
      worth (UnpackedFloat.unpack Format.binary64 (UnpackedFloat.pack Format.binary64 x)) =
        min (worth x) limit := by
  rcases unsigned_cases unsigned with rfl | rfl | ⟨m, e, large, rfl⟩
  · rw [unpack_pack_zero]
    exact ⟨trivial, (min_eq_left (two_zpow_pos 1024).le).symm⟩
  · rw [UnpackedFloat.pack, unpack_packedInfinity]
    exact ⟨trivial, (min_self _).symm⟩
  · rcases le_or_gt e 971 with bounded | overflow
    · rw [unpack_pack_finite unsigned bounded]
      exact ⟨unsigned, (min_eq_left (worth_lt_limit unsigned bounded).le).symm⟩
    · have least : (2 : ℚ) ^ 52 ≤ m := by exact_mod_cast unsigned.2.2.resolve_right (by omega)
      rw [unpack_pack_overflow overflow]
      refine ⟨trivial, (min_eq_right ?_).symm⟩
      calc limit ≤ 2 ^ (52 + e) := zpow_le_zpow_right₀ one_le_two (by omega)
        _ ≤ m * 2 ^ e := le_scaled least e

theorem standsFor_exact (m : Nat) : StandsFor (.ofMantissaAndAccuracy m .exact) m :=
  rfl

theorem scaled_mul (m n : Nat) (e f : ℤ) :
    (m : ℚ) * 2 ^ e * (n * 2 ^ f) = (m * n : Nat) * 2 ^ (e + f) := by
  rw [zpow_add₀ two_ne_zero]
  push_cast
  ring

theorem log_scaled {m : Nat} (large : 0 < m) (e : ℤ) :
    Int.log 2 ((m : ℚ) * 2 ^ e) = m.log2 + e := by
  apply log_eq_of_floor_eq large
  rw [mul_div_cancel_right₀ _ (two_zpow_pos e).ne', Int.floor_natCast]

theorem mul_spec {x y : UnpackedFloat} (left : UnsignedForm x) (right : UnsignedForm y)
    (finite : worth x < limit) (finite' : worth y < limit) :
    UnsignedForm (x.mul Format.binary64 y) ∧
      worth (x.mul Format.binary64 y) = rounded (worth x * worth y) := by
  rcases unsigned_cases left with rfl | rfl | ⟨m, e, large, rfl⟩
  · rw [worth_zero, zero_mul, rounded_zero]
    rcases unsigned_cases right with rfl | rfl | ⟨n, f, large', rfl⟩
    · exact ⟨trivial, rfl⟩
    · exact absurd finite' (lt_irrefl _)
    · exact ⟨trivial, rfl⟩
  · exact absurd finite (lt_irrefl _)
  · rcases unsigned_cases right with rfl | rfl | ⟨n, f, large', rfl⟩
    · rw [worth_zero, mul_zero, rounded_zero]
      exact ⟨trivial, rfl⟩
    · exact absurd finite' (lt_irrefl _)
    · have product : 0 < m * n := Nat.mul_pos large large'
      have positive : (0 : ℚ) < (m * n : Nat) * 2 ^ (e + f) :=
        mul_pos (by exact_mod_cast product) (two_zpow_pos _)
      rw [worth, worth, scaled_mul]
      refine roundWithAccuracy_spec positive ?_ ?_
      · rw [mul_div_cancel_right₀ _ (two_zpow_pos _).ne']
        exact standsFor_exact (m * n)
      · have long : 52 ≤ (m * n).log2 ∨ e = -1074 ∧ f = -1074 := by
          rw [Nat.le_log2 product.ne']
          rcases left.2.2 with long | lowest
          · exact .inl (long.trans (Nat.le_mul_of_pos_right m large'))
          · rcases right.2.2 with long | lowest'
            · exact .inl (long.trans (Nat.le_mul_of_pos_left n large))
            · exact .inr ⟨lowest, lowest'⟩
        rw [lastPlace, log_scaled product]
        omega

theorem scaled_shiftLeft (m : Nat) {e t : ℤ} (later : t ≤ e) :
    (m : ℚ) * 2 ^ e / 2 ^ t = (m <<< (e - t).toNat : Nat) := by
  obtain ⟨k, shift⟩ := Int.eq_ofNat_of_zero_le (sub_nonneg.2 later)
  rw [mul_div_assoc, ← zpow_sub₀ two_ne_zero, shift, Nat.shiftLeft_eq]
  simp

theorem scaled_div (m n : Nat) (e f : ℤ) :
    (m : ℚ) * 2 ^ e / (n * 2 ^ f) = m * 2 ^ (e - f) / n := by
  rw [zpow_sub₀ two_ne_zero, mul_div_assoc', div_div, mul_comm (n : ℚ)]

theorem log_sub_log_le {q r : ℚ} (positive : 0 < q) (positive' : 0 < r) :
    Int.log 2 q - Int.log 2 r - 1 ≤ Int.log 2 (q / r) := by
  refine (Int.zpow_le_iff_le_log one_lt_two (div_pos positive positive')).1 ?_
  have below : (2 : ℚ) ^ Int.log 2 q ≤ q := Int.zpow_log_le_self one_lt_two positive
  have above : r ≤ 2 ^ (Int.log 2 r + 1) := (Int.lt_zpow_succ_log_self one_lt_two r).le
  calc (2 : ℚ) ^ (Int.log 2 q - Int.log 2 r - 1) = 2 ^ Int.log 2 q / 2 ^ (Int.log 2 r + 1) := by
        rw [← zpow_sub₀ two_ne_zero, sub_sub]
    _ ≤ q / r := div_le_div₀ positive.le below positive' above

theorem div_spec {x y : UnpackedFloat} (left : UnsignedForm x) (right : UnsignedForm y)
    (finite : worth x < limit) (finite' : worth y < limit) (some : 0 < worth x)
    (some' : 0 < worth y) :
    UnsignedForm (x.div Format.binary64 y) ∧
      worth (x.div Format.binary64 y) = rounded (worth x / worth y) := by
  rcases unsigned_cases left with rfl | rfl | ⟨m, e, large, rfl⟩
  · exact absurd some (lt_irrefl _)
  · exact absurd finite (lt_irrefl _)
  · rcases unsigned_cases right with rfl | rfl | ⟨n, f, large', rfl⟩
    · exact absurd some' (lt_irrefl _)
    · exact absurd finite' (lt_irrefl _)
    · rw [UnpackedFloat.div, divCore]
      dsimp only
      have positive := div_pos some some'
      have logs := log_sub_log_le some some'
      refine roundWithAccuracy_spec positive ?_ ?_
      · have same := standsFor_div (m <<< (e - f - min (e - f) (Format.binary64.targetExponent
          (totalExponent m e - totalExponent n f))).toNat) large'
        rwa [← scaled_shiftLeft m (min_le_left _ _), div_right_comm, ← scaled_div] at same
      · rw [worth, worth, log_scaled large, log_scaled large'] at logs
        rw [lastPlace, targetExponent_binary64, totalExponent, totalExponent]
        simp only [worth]
        omega

theorem normalize_spec {m : Nat} (large : 0 < m) (e : ℤ) :
    UnsignedForm (UnpackedFloat.normalize Format.binary64 m e .positive) ∧
      worth (UnpackedFloat.normalize Format.binary64 m e .positive) = rounded (m * 2 ^ e) := by
  have above : compare (m : ℤ) 0 = .gt := Int.compare_eq_gt.2 (Int.natCast_pos.2 large)
  rw [UnpackedFloat.normalize, above]
  dsimp only
  rw [UnpackedFloat.round, decreaseExponent]
  dsimp only
  refine roundWithAccuracy_spec (mul_pos (by exact_mod_cast large) (two_zpow_pos e)) ?_ ?_
  · generalize (e - Format.binary64.targetExponent _).toNat = k
    have shifted := scaled_shiftLeft m (show e - (k : ℤ) ≤ e by omega)
    rw [show (e - (e - (k : ℤ))).toNat = k by omega] at shifted
    rw [Int.toNat_natCast, shifted]
    exact standsFor_exact _
  · rw [lastPlace, log_scaled large, targetExponent_binary64, totalExponent]
    simp
    omega

theorem ofNat_spec {n : Nat} (large : 0 < n) :
    UnsignedForm (UnpackedFloat.ofNat Format.binary64 n) ∧
      worth (UnpackedFloat.ofNat Format.binary64 n) = rounded n := by
  have normalized := normalize_spec large 0
  rwa [zpow_zero, mul_one] at normalized

theorem rounded_limit : rounded limit = limit := by
  simpa [limit] using rounded_eq_self (m := 1) (e := 1024) (by decide) (by decide)

theorem rounded_worth {x : UnpackedFloat} (unsigned : UnsignedForm x) :
    rounded (worth x) = worth x := by
  rcases unsigned_cases unsigned with rfl | rfl | ⟨m, e, large, rfl⟩
  · exact rounded_zero
  · exact rounded_limit
  · exact rounded_eq_self unsigned.1.le unsigned.2.1

theorem scaled_add (m n : Nat) (e f : ℤ) :
    (m : ℚ) * 2 ^ e + n * 2 ^ f =
      (m <<< (e - min e f).toNat + n <<< (f - min e f).toNat : Nat) * 2 ^ min e f := by
  have nonzero := (two_zpow_pos (min e f)).ne'
  rw [Nat.cast_add, ← scaled_shiftLeft m (min_le_left e f), ← scaled_shiftLeft n (min_le_right e f),
    add_mul, div_mul_cancel₀ _ nonzero, div_mul_cancel₀ _ nonzero]

theorem add_worth {x y : UnpackedFloat} (left : UnsignedForm x) (right : UnsignedForm y) :
    UnsignedForm (x.add Format.binary64 y) ∧
      min (worth (x.add Format.binary64 y)) limit = min (rounded (worth x + worth y)) limit := by
  have infinite : ∀ {q : ℚ}, limit ≤ q → min limit limit = min (rounded q) limit := by
    intro q above
    have kept : rounded limit ≤ rounded q := rounded_mono (two_zpow_pos 1024).le above
    rw [min_self, min_eq_right (rounded_limit.ge.trans kept)]
  rcases unsigned_cases left with rfl | rfl | ⟨m, e, large, rfl⟩
  · rw [worth_zero, zero_add, rounded_worth right]
    rcases unsigned_cases right with rfl | rfl | ⟨n, f, large', rfl⟩ <;> exact ⟨right, rfl⟩
  · have above := le_add_of_nonneg_right (a := limit) (worth_nonneg y)
    rcases unsigned_cases right with rfl | rfl | ⟨n, f, large', rfl⟩ <;>
      exact ⟨trivial, infinite above⟩
  · rcases unsigned_cases right with rfl | rfl | ⟨n, f, large', rfl⟩
    · rw [worth_zero, add_zero, rounded_worth left]
      exact ⟨left, rfl⟩
    · exact ⟨trivial, infinite (le_add_of_nonneg_left (worth_nonneg _))⟩
    · rw [worth, worth, scaled_add]
      have some : 0 < m <<< (e - min e f).toNat := by
        rw [Nat.shiftLeft_eq]
        exact Nat.mul_pos large (Nat.two_pow_pos _)
      obtain ⟨unsigned, sum⟩ := normalize_spec
        (Nat.add_pos_left some (n <<< (f - min e f).toNat)) (min e f)
      rw [← sum]
      exact ⟨unsigned, rfl⟩

section Operations

variable {x y : Float}

/-- The sign bit is not set, and it is a number. -/
def Unsigned (x : Float) : Prop :=
  UnsignedForm x.toModel.unpack

def value (x : Float) : ℚ :=
  worth x.toModel.unpack

def word (x : Float) : BitVec Format.binary64.numBits :=
  x.toBits.toBitVec

theorem unpack_eq (x : Float) :
    x.toModel.unpack = UnpackedFloat.unpack Format.binary64 (word x) :=
  rfl

theorem Unsigned.infinite_or_lt (unsigned : Unsigned x) :
    x.toModel.unpack = .infinity .positive ∨ value x < limit := by
  have same : (Float.ofModel (pack x.toModel.unpack)).toModel.unpack = x.toModel.unpack := by
    rw [pack_unpack_eq]
  rcases unsigned_cases unsigned with zero | infinite | ⟨m, e, large, number⟩
  · rw [value, zero]
    exact .inr (two_zpow_pos _)
  · exact .inl infinite
  · rw [Unsigned, number] at unsigned
    rcases le_or_gt e 971 with bounded | overflow
    · rw [value, number]
      exact .inr (worth_lt_limit unsigned bounded)
    · rw [number] at same
      have infinite := (@unpack_pack_overflow m e large overflow).symm.trans same
      cases infinite

theorem unpack_mul (x y : Float) :
    (x * y).toModel.unpack = UnpackedFloat.unpack Format.binary64 (UnpackedFloat.pack
      Format.binary64 (x.toModel.unpack.mul Format.binary64 y.toModel.unpack)) :=
  rfl

theorem unpack_div (x y : Float) :
    (x / y).toModel.unpack = UnpackedFloat.unpack Format.binary64 (UnpackedFloat.pack
      Format.binary64 (x.toModel.unpack.div Format.binary64 y.toModel.unpack)) :=
  rfl

theorem value_one : Unsigned 1.0 ∧ value 1.0 = 1 := by
  have unpacked : (1.0 : Float).toModel.unpack = .finite .positive (2 ^ 52) (-52) (by decide) := rfl
  rw [value, unpacked]
  refine ⟨⟨by decide, by decide, .inl le_rfl⟩, ?_⟩
  rw [worth, Nat.cast_pow, Nat.cast_ofNat, two_pow_mul_zpow]
  rfl

theorem ofNat_of_lt {n : Nat} (short : n < 2 ^ 53) :
    Float.ofNat n = n.toUInt64.toFloat * 1.0 := by
  change Float.ofScientific n false 0 = _
  rw [Float.ofScientific, dif_pos ⟨short, by decide⟩]
  rfl

theorem ofNat_of_le {n : Nat} (long : 2 ^ 53 ≤ n) :
    Float.ofNat n = Float.ofModel (Float.Model.ofScientific n 0) := by
  change Float.ofScientific n false 0 = _
  rw [Float.ofScientific, dif_neg (by omega)]
  rfl

theorem unpack_toFloat (n : UInt64) :
    n.toFloat.toModel.unpack = UnpackedFloat.unpack Format.binary64 (UnpackedFloat.pack
      Format.binary64 (UnpackedFloat.ofNat Format.binary64 n.toNat)) :=
  rfl

theorem unsigned_of_positive {x : Float} (positive : Positive x.toModel.unpack) :
    Unsigned x := by
  have fits := fitting_unpack (word x)
  revert positive fits
  rw [Unsigned, unpack_eq]
  unfold UnpackedFloat.unpack
  dsimp only
  generalize Sign.ofBitVec (unpackSign (word x)) = sign
  cases sign with
  | negative => split_ifs <;> exact fun positive _ => positive
  | positive =>
    split_ifs with ones none lowest zero
    · exact fun _ _ => trivial
    · exact fun positive _ => positive
    · exact fun _ _ => trivial
    · intro _ fits
      refine ⟨fits.1, fits.2, .inr ?_⟩
      rw [lowest]
      rfl
    · intro _ fits
      refine ⟨fits.1, fits.2, .inl ?_⟩
      rw [append_leading]
      omega

-- Infinity counts as the limit here too.
theorem value_add (left : Unsigned x) (right : Unsigned y) :
    Unsigned (x + y) ∧ value (x + y) = min (rounded (value x + value y)) limit := by
  obtain ⟨unsigned, sum⟩ := add_worth left right
  rw [value, unpack_add, value, value, ← sum]
  exact unpack_pack unsigned

theorem value_mul (left : Unsigned x) (right : Unsigned y)
    (finite : value x < limit) (finite' : value y < limit) :
    Unsigned (x * y) ∧
      value (x * y) = min (rounded (value x * value y)) limit := by
  obtain ⟨unsigned, product⟩ := mul_spec left right finite finite'
  rw [value, unpack_mul, value, value, ← product]
  exact unpack_pack unsigned

theorem value_div (left : Unsigned x) (right : Unsigned y)
    (finite : value x < limit) (finite' : value y < limit) (some : 0 < value x)
    (some' : 0 < value y) :
    Unsigned (x / y) ∧
      value (x / y) = min (rounded (value x / value y)) limit := by
  obtain ⟨unsigned, quotient⟩ := div_spec left right finite finite' some some'
  rw [value, unpack_div, value, value, ← quotient]
  exact unpack_pack unsigned

theorem value_ofNat {n : Nat} (large : 0 < n) :
    Unsigned (Float.ofNat n) ∧ value (Float.ofNat n) = min (rounded n) limit := by
  rcases lt_or_ge n (2 ^ 53) with short | long
  · rw [ofNat_of_lt short]
    have word : n.toUInt64.toNat = n := Nat.mod_eq_of_lt (by omega)
    have exact : rounded n = n := by simpa using rounded_eq_self short.le (e := 0) (by decide)
    have below : (n : ℚ) < limit :=
      lt_trans (by exact_mod_cast short) (two_pow_lt_limit (by decide : 53 < 1024))
    obtain ⟨unsigned, converted⟩ : Unsigned n.toUInt64.toFloat ∧
        value n.toUInt64.toFloat = n := by
      obtain ⟨unsigned, whole⟩ := ofNat_spec large
      rw [Unsigned, value, unpack_toFloat, word]
      obtain ⟨unsigned', packed⟩ := unpack_pack unsigned
      rw [whole, exact, min_eq_left below.le] at packed
      exact ⟨unsigned', packed⟩
    obtain ⟨unit, one⟩ := value_one
    have product := value_mul unsigned unit (by rwa [converted])
      (by rw [one]; exact one_lt_limit)
    rwa [converted, one, mul_one] at product
  · have nonzero : n ≠ 0 := large.ne'
    obtain ⟨unsigned, product⟩ : UnsignedForm (UnpackedFloat.ofScientific Format.binary64 n 0) ∧
        worth (UnpackedFloat.ofScientific Format.binary64 n 0) = rounded n := by
      rw [UnpackedFloat.ofScientific, dif_neg nonzero, if_neg (by decide), if_neg, if_pos le_rfl]
      · rw [UnpackedFloat.mul]
        refine roundWithAccuracy_spec (by exact_mod_cast large) ?_ ?_
        · have shifted := scaled_shiftLeft n (show (-53 : ℤ) ≤ 0 by decide)
          rw [zpow_zero, mul_one] at shifted
          change StandsFor (.ofMantissaAndAccuracy (n <<< 53 * 1) .exact) (n / 2 ^ (-53 : ℤ))
          rw [shifted, mul_one]
          exact standsFor_exact _
        · have log : Int.log 2 (n : ℚ) = n.log2 := by simpa using log_scaled large 0
          have long := (Nat.le_log2 nonzero).2 long
          change (-53 : ℤ) ≤ _
          rw [lastPlace, log]
          omega
      · change ¬(0 : ℤ) < -((2048 : ℤ) + n.log2)
        omega
    rw [ofNat_of_le long, ← product]
    exact unpack_pack unsigned

end Operations

section Order

variable {x y : Float}

theorem value_nonneg (x : Float) : 0 ≤ value x :=
  worth_nonneg _

theorem Unsigned.value_le_limit (unsigned : Unsigned x) : value x ≤ limit := by
  rcases unsigned.infinite_or_lt with infinite | finite
  · rw [value, infinite]
    exact le_rfl
  · exact finite.le

theorem Unsigned.isFinite_iff (unsigned : Unsigned x) :
    Scalar.isFinite x = true ↔ value x < limit := by
  have unpacked : Scalar.isFinite x = x.toModel.unpack.isFinite := rfl
  rw [unpacked]
  rcases unsigned.infinite_or_lt with infinite | finite
  · rw [value, infinite]
    exact iff_of_false Bool.false_ne_true (lt_irrefl _)
  · refine iff_of_true ?_ finite
    rcases unsigned_cases unsigned with zero | infinite | ⟨m, e, large, number⟩
    · rw [zero]
      rfl
    · rw [value, infinite] at finite
      exact absurd finite (lt_irrefl _)
    · rw [number]
      rfl

theorem Unsigned.isNaN_eq_false (unsigned : Unsigned x) : Scalar.isNaN x = false := by
  have unpacked : Scalar.isNaN x = x.toModel.unpack.isNaN := rfl
  rw [unpacked]
  rcases unsigned_cases unsigned with zero | infinite | ⟨m, e, large, number⟩
  · rw [zero]
    rfl
  · rw [infinite]
    rfl
  · rw [number]
    rfl

theorem Unsigned.least_le_value (unsigned : Unsigned x) (positive : 0 < value x) :
    2 ^ (-1074 : ℤ) ≤ value x := by
  unfold value at positive ⊢
  rcases unsigned_cases unsigned with zero | infinite | ⟨m, e, large, number⟩
  · rw [zero] at positive
    exact absurd positive (lt_irrefl _)
  · rw [infinite]
    exact zpow_le_zpow_right₀ one_le_two (by decide)
  · rw [Unsigned, number] at unsigned
    have one : (1 : ℚ) ≤ m := by exact_mod_cast large
    rw [number]
    calc (2 : ℚ) ^ (-1074 : ℤ) ≤ 2 ^ e := zpow_le_zpow_right₀ one_le_two unsigned.2.1
      _ ≤ m * 2 ^ e := le_mul_of_one_le_left (two_zpow_pos e).le one

theorem worth_lt_worth {m n : Nat} {e f : ℤ} {large : 0 < m} {large' : 0 < n}
    (left : UnsignedForm (.finite .positive m e large))
    (right : UnsignedForm (.finite .positive n f large')) (before : e < f) :
    worth (.finite .positive m e large) < worth (.finite .positive n f large') := by
  have short : (m : ℚ) < 2 ^ 53 := by exact_mod_cast left.1
  have full : (2 : ℚ) ^ 52 ≤ n := by
    have inside := left.2.1
    exact_mod_cast right.2.2.resolve_right (by omega)
  calc (m : ℚ) * 2 ^ e < 2 ^ (53 + e) := scaled_lt short e
    _ ≤ 2 ^ (52 + f) := zpow_le_zpow_right₀ one_le_two (by omega)
    _ ≤ n * 2 ^ f := le_scaled full f

theorem compare_finite {m n : Nat} {e f : ℤ} {large : 0 < m} {large' : 0 < n}
    (left : UnsignedForm (.finite .positive m e large))
    (right : UnsignedForm (.finite .positive n f large')) :
    (compare e f).then (compare m n) =
      compare (worth (.finite .positive m e large)) (worth (.finite .positive n f large')) := by
  rcases lt_trichotomy e f with before | rfl | after
  · rw [compare_lt_iff_lt.2 (worth_lt_worth left right before), compare_lt_iff_lt.2 before]
    rfl
  · have scale : (m : ℚ) * 2 ^ e < n * 2 ^ e ↔ m < n := by
      rw [mul_lt_mul_iff_left₀ (two_zpow_pos e), Nat.cast_lt]
    have scale' : (n : ℚ) * 2 ^ e < m * 2 ^ e ↔ n < m := by
      rw [mul_lt_mul_iff_left₀ (two_zpow_pos e), Nat.cast_lt]
    rw [compare_eq_iff_eq.2 rfl]
    rcases lt_trichotomy m n with less | rfl | greater
    · exact (compare_lt_iff_lt.2 less).trans (compare_lt_iff_lt.2 (scale.2 less)).symm
    · exact (compare_eq_iff_eq.2 rfl).trans (compare_eq_iff_eq.2 rfl).symm
    · exact (compare_gt_iff_gt.2 greater).trans (compare_gt_iff_gt.2 (scale'.2 greater)).symm
  · rw [compare_gt_iff_gt.2 (worth_lt_worth right left after), compare_gt_iff_gt.2 after]
    rfl

theorem compare_eq (left : Unsigned x) (right : Unsigned y) :
    x.toModel.unpack.compare y.toModel.unpack = some (compare (value x) (value y)) := by
  have positive : ∀ {m : Nat} {e : ℤ}, 0 < m → (0 : ℚ) < m * 2 ^ e := fun large =>
    mul_pos (by exact_mod_cast large) (two_zpow_pos _)
  have boundLeft := left.infinite_or_lt
  have boundRight := right.infinite_or_lt
  unfold value at boundLeft boundRight ⊢
  unfold Unsigned at left right
  revert left right boundLeft boundRight
  generalize x.toModel.unpack = x
  generalize y.toModel.unpack = y
  intro left right boundLeft boundRight
  rcases unsigned_cases left with rfl | rfl | ⟨m, e, large, rfl⟩ <;>
    rcases unsigned_cases right with rfl | rfl | ⟨n, f, large', rfl⟩
  · exact congrArg some (compare_eq_iff_eq.2 rfl).symm
  · exact congrArg some (compare_lt_iff_lt.2 (two_zpow_pos 1024)).symm
  · exact congrArg some (compare_lt_iff_lt.2 (positive large')).symm
  · exact congrArg some (compare_gt_iff_gt.2 (two_zpow_pos 1024)).symm
  · exact congrArg some (compare_eq_iff_eq.2 rfl).symm
  · exact congrArg some (compare_gt_iff_gt.2 (boundRight.resolve_left nofun)).symm
  · exact congrArg some (compare_gt_iff_gt.2 (positive large)).symm
  · exact congrArg some (compare_lt_iff_lt.2 (boundLeft.resolve_left nofun)).symm
  · exact congrArg some (compare_finite left right)

theorem lt_iff (left : Unsigned x) (right : Unsigned y) :
    Scalar.lt x y = true ↔ value x < value y := by
  have unpacked : Scalar.lt x y = true ↔ x.toModel.unpack.lt y.toModel.unpack = true :=
    decide_eq_true_iff
  rw [unpacked, UnpackedFloat.lt, compare_eq left right, ← compare_lt_iff_lt]
  simp

theorem le_iff (left : Unsigned x) (right : Unsigned y) :
    Scalar.le x y = true ↔ value x ≤ value y := by
  have unpacked : Scalar.le x y = true ↔ x.toModel.unpack.le y.toModel.unpack = true :=
    decide_eq_true_iff
  rw [unpacked, UnpackedFloat.le, compare_eq left right, ← compare_le_iff_le]
  simp [Ordering.isLE_iff_ne_gt]

theorem value_zero : Unsigned 0.0 ∧ value 0.0 = 0 :=
  ⟨trivial, rfl⟩

theorem isFactor_spec (factor : Scalar.isFactor x = true) :
    Unsigned x ∧ 0 < value x ∧ value x ≤ 1 := by
  rw [Scalar.isFactor, Bool.and_eq_true] at factor
  obtain ⟨above, below⟩ := factor
  have unsigned := unsigned_of_positive ((zero_lt_iff x).1 above)
  obtain ⟨plain, zero⟩ := value_zero
  obtain ⟨unit, one⟩ := value_one
  exact ⟨unsigned, zero ▸ (lt_iff plain unsigned).1 above, one ▸ (le_iff unsigned unit).1 below⟩

theorem rounded_one : rounded 1 = 1 := by
  simpa using rounded_eq_self (m := 1) (e := 0) (by decide) (by decide)

theorem rounded_le_one {q : ℚ} (nonneg : 0 ≤ q) (le_one : q ≤ 1) : rounded q ≤ 1 :=
  (rounded_mono nonneg le_one).trans_eq rounded_one

theorem value_mul_of_le_one (left : Unsigned x) (right : Unsigned y) (le_one : value x ≤ 1)
    (le_one' : value y ≤ 1) : Unsigned (x * y) ∧ value (x * y) = rounded (value x * value y) := by
  obtain ⟨unsigned, product⟩ := value_mul left right (le_one.trans_lt one_lt_limit)
    (le_one'.trans_lt one_lt_limit)
  have below := rounded_le_one (mul_nonneg (value_nonneg x) (value_nonneg y))
    (mul_le_one₀ le_one (value_nonneg y) le_one')
  exact ⟨unsigned, product.trans (min_eq_left (below.trans one_lt_limit.le))⟩

theorem value_mul_infinity (left : Unsigned x) (some : 0 < value x)
    (infinite : y.toModel.unpack = .infinity .positive) :
    Unsigned (x * y) ∧ value (x * y) = limit := by
  have product : x.toModel.unpack.mul Format.binary64 (.infinity .positive) =
      .infinity .positive := by
    unfold value at some
    rcases unsigned_cases left with zero | infinite' | ⟨m, e, large, number⟩
    · rw [zero] at some
      exact absurd some (lt_irrefl _)
    · rw [infinite']
      rfl
    · rw [number]
      rfl
  rw [Unsigned, value, unpack_mul, infinite, product]
  exact ⟨trivial, rfl⟩

theorem Unsigned.mul (left : Unsigned x) (some : 0 < value x) (finite : value x < limit)
    (right : Unsigned y) : Unsigned (x * y) := by
  rcases right.infinite_or_lt with infinite | finite'
  · exact (value_mul_infinity left some infinite).1
  · exact (value_mul left right finite finite').1

theorem value_mul_mono {z : Float} (left : Unsigned x) (some : 0 < value x)
    (finite : value x < limit) (lower : Unsigned y) (upper : Unsigned z)
    (ordered : value y ≤ value z) :
    value (x * y) ≤ value (x * z) := by
  rcases upper.infinite_or_lt with infinite | finite'
  · rw [(value_mul_infinity left some infinite).2]
    exact (left.mul some finite lower).value_le_limit
  · rw [(value_mul left lower finite (ordered.trans_lt finite')).2,
      (value_mul left upper finite finite').2]
    exact min_le_min_right _ (rounded_mono (mul_nonneg some.le (value_nonneg y))
      (mul_le_mul_of_nonneg_left ordered some.le))

theorem unpack_eq_zero (unsigned : Unsigned x) (zero : value x = 0) :
    x.toModel.unpack = .zero .positive := by
  unfold value at zero
  rcases unsigned_cases unsigned with none | infinite | ⟨m, e, large, number⟩
  · exact none
  · rw [infinite] at zero
    exact absurd zero (two_zpow_pos 1024).ne'
  · rw [number] at zero
    exact absurd zero (mul_pos (by exact_mod_cast large) (two_zpow_pos e)).ne'

theorem value_one_div (unsigned : Unsigned x) (le_one : value x ≤ 1) :
    Unsigned (1.0 / x) ∧
      value (1.0 / x) = if value x = 0 then limit else min (rounded (1 / value x)) limit := by
  obtain ⟨unit, one⟩ := value_one
  split_ifs with zero
  · have quotient : (1.0 / x).toModel.unpack = .infinity .positive := by
      rw [unpack_div, unpack_eq_zero unsigned zero]
      rfl
    rw [Unsigned, value, quotient]
    exact ⟨trivial, rfl⟩
  · have quotient := value_div unit unsigned (one ▸ one_lt_limit) (le_one.trans_lt one_lt_limit)
      (one ▸ one_pos) ((value_nonneg x).lt_of_ne' zero)
    rwa [one] at quotient

theorem one_le_scaled {m : Nat} {e : ℤ} (full : 2 ^ 52 ≤ m) (late : -52 ≤ e) :
    (1 : ℚ) ≤ m * 2 ^ e :=
  calc (1 : ℚ) ≤ 2 ^ (52 + e) := one_le_zpow₀ one_le_two (by omega)
    _ ≤ m * 2 ^ e := le_scaled (by exact_mod_cast full) e

theorem scaled_lt_one {m : Nat} {e : ℤ} (short : m < 2 ^ 53) (early : e ≤ -53) :
    (m : ℚ) * 2 ^ e < 1 :=
  calc (m : ℚ) * 2 ^ e < 2 ^ (53 + e) := scaled_lt (by exact_mod_cast short) e
    _ ≤ 1 := zpow_le_one_of_nonpos₀ one_le_two (by omega)

-- The greatest number below one has a significand of ones.
theorem Unsigned.le_of_lt_one (unsigned : Unsigned x) (below : value x < 1) :
    value x ≤ (2 ^ 53 - 1) / 2 ^ 53 := by
  unfold value at below ⊢
  rcases unsigned_cases unsigned with zero | infinite | ⟨m, e, large, number⟩
  · rw [zero, worth_zero]
    norm_num
  · rw [infinite] at below
    exact absurd below one_lt_limit.not_gt
  · rw [Unsigned, number] at unsigned
    rw [number] at below ⊢
    obtain ⟨short, inside, least⟩ := unsigned
    have early : e ≤ -53 := by
      by_contra late
      exact absurd below (one_le_scaled (least.resolve_right (by omega)) (by omega)).not_gt
    have ones : (m : ℚ) ≤ 2 ^ 53 - 1 := by
      rw [le_sub_iff_add_le]
      exact_mod_cast short
    calc (m : ℚ) * 2 ^ e ≤ (2 ^ 53 - 1) * 2 ^ (-53 : ℤ) :=
          mul_le_mul ones (zpow_le_zpow_right₀ one_le_two early) (two_zpow_pos e).le (by norm_num)
      _ = (2 ^ 53 - 1) / 2 ^ 53 := by
        rw [zpow_neg, div_eq_mul_inv]
        rfl

-- The reciprocal of the greatest number below one lies above the middle between one and the next
-- number, so it is rounded to that.
theorem rounded_next_one : rounded (2 ^ 53 / (2 ^ 53 - 1)) = 1 + 2 ^ (-52 : ℤ) := by
  have scaled : (2 ^ 53 / (2 ^ 53 - 1) : ℚ) / 2 ^ (-52 : ℤ) =
      (2 ^ 105 : Nat) / (2 ^ 53 - 1 : Nat) := by
    norm_num
  have standing := standsFor_div (2 ^ 105) (d := 2 ^ 53 - 1) (by decide)
  rw [← scaled] at standing
  have floor : ⌊(2 ^ 53 / (2 ^ 53 - 1) : ℚ) / 2 ^ (-52 : ℤ)⌋ = (2 ^ 52 : Nat) := standing.floor_eq
  have place : lastPlace (2 ^ 53 / (2 ^ 53 - 1)) = -52 := by
    rw [lastPlace, log_eq_of_floor_eq (by decide) floor, Nat.log2_two_pow]
    rfl
  have up : nearest ((2 ^ 53 / (2 ^ 53 - 1) : ℚ) / 2 ^ (-52 : ℤ)) = (2 ^ 52 + 1 : Nat) :=
    standing.roundedMantissa_eq.symm
  rw [rounded, place, up]
  norm_num

theorem value_one_div_of_lt_one (unsigned : Unsigned x) (below : value x < 1) :
    1 + 2 ^ (-52 : ℤ) ≤ value (1.0 / x) := by
  have bound : (1 + 2 ^ (-52 : ℤ) : ℚ) ≤ limit := by
    refine le_trans ?_ (two_pow_lt_limit (by decide : 1 < 1024)).le
    norm_num
  rw [(value_one_div unsigned below.le).2]
  split_ifs with zero
  · exact bound
  · have positive := (value_nonneg x).lt_of_ne' zero
    have above : 2 ^ 53 / (2 ^ 53 - 1) ≤ 1 / value x := by
      rw [← one_div_div]
      exact one_div_le_one_div_of_le positive (unsigned.le_of_lt_one below)
    exact le_min (rounded_next_one.ge.trans (rounded_mono (by norm_num) above)) bound

theorem lt_value_mul (left : Unsigned x) (some : 1 ≤ value x) (finite : value x < limit)
    (right : Unsigned y) (grown : 1 + 2 ^ (-52 : ℤ) ≤ value y) : value x < value (x * y) := by
  rcases right.infinite_or_lt with infinite | finite'
  · rw [(value_mul_infinity left (one_pos.trans_le some) infinite).2]
    exact finite
  · rw [(value_mul left right finite finite').2, lt_min_iff]
    refine ⟨?_, finite⟩
    have product := mul_le_mul_of_nonneg_left grown (value_nonneg x)
    unfold value at some finite product ⊢
    rcases unsigned_cases left with zero | infinite | ⟨m, e, large, number⟩
    · rw [zero, worth_zero] at some
      exact absurd some one_pos.not_ge
    · rw [infinite] at finite
      exact absurd finite (lt_irrefl _)
    · rw [Unsigned, number] at left
      rw [number] at some product ⊢
      obtain ⟨short, inside, least⟩ := left
      refine lt_rounded short (least.resolve_right ?_) inside product
      rintro rfl
      exact absurd some (scaled_lt_one short (by decide)).not_ge

end Order

section Ceiling

open Number

theorem toNat_unpackExponent (x : Float) :
    (unpackExponent (word x)).toNat = biasedExponent x := by
  simp [unpackExponent, biasedExponent, word]

theorem toNat_unpackMantissa (x : Float) :
    (unpackMantissa (word x)).toNat = fraction x := by
  simp [unpackMantissa, fraction, leadingBit, word]

theorem toNat_unpackSign (x : Float) :
    (unpackSign (word x)).toNat = x.toBits.toNat >>> 63 := by
  have short : x.toBits.toNat >>> 63 < 2 := by
    rw [Nat.shiftRight_eq_div_pow]
    have := x.toBits.toNat_lt
    omega
  simpa [unpackSign, word] using short

theorem isNegative_eq_false {x : Float} (unsigned : Unsigned x) :
    isNegative x = false := by
  rw [isNegative, ← toNat_unpackSign]
  by_contra negative
  have set : unpackSign (word x) = 1#1 :=
    BitVec.eq_of_toNat_eq (by simpa using negative)
  revert unsigned
  rw [Unsigned, unpack_eq]
  unfold UnpackedFloat.unpack
  rw [set]
  dsimp only
  split_ifs <;> exact id

theorem leadingBit_eq : leadingBit = 2 ^ 52 :=
  rfl

-- The five kinds of words: infinity, what is not a number, zero, and the numbers without and with a
-- leading bit.
theorem value_magnitude {x : Float} (unsigned : Unsigned x)
    (finite : value x < limit) : (magnitude x).value = value x := by
  have bias : (Format.binary64.exponentBias + Format.binary64.mantissaBitsWithoutImplicit : Int) =
      1075 := rfl
  revert unsigned finite
  rw [Unsigned, value, unpack_eq, magnitude, ← toNat_unpackExponent, ← toNat_unpackMantissa]
  unfold UnpackedFloat.unpack
  dsimp only
  rw [bias]
  split_ifs with ones none lowest zero
  · intro unsigned finite
    exact absurd finite (lt_irrefl _)
  · intro unsigned
    exact unsigned.elim
  · intro unsigned finite
    rw [lowest, zero]
    simp [Magnitude.value]
  · intro unsigned finite
    rw [lowest]
    simp [Magnitude.value, worth]
  · intro unsigned finite
    have some : (unpackExponent (word x)).toNat ≠ 0 :=
      fun none => lowest (BitVec.eq_of_toNat_eq none)
    split
    · next none => exact absurd none some
    · rw [worth, append_leading, leadingBit_eq, Magnitude.value]

theorem ceiling_eq {x : Float} (unsigned : Unsigned x) (finite : value x < limit) :
    ceiling x = ⌈value x⌉ := by
  rw [← value_magnitude unsigned finite, ← Magnitude.ceil_value, ceiling,
    isNegative_eq_false unsigned]
  rfl

theorem ceilingUnsigned_eq {x : Float} (unsigned : Unsigned x) :
    ceilingUnsigned x = min (UInt64.size - 1) ⌈value x⌉.toNat := by
  have number : x.isNaN = false := unsigned.isNaN_eq_false
  rw [ceilingUnsigned, saturate, number]
  rcases unsigned.infinite_or_lt with infinite | finite
  · have greatest : (2 ^ 64 : ℤ) < ⌈value x⌉ := by
      rw [value, infinite, Int.lt_ceil]
      exact_mod_cast two_pow_lt_limit (by decide : 64 < 1024)
    have notFinite : x.isFinite = false := congrArg UnpackedFloat.isFinite infinite
    rw [notFinite, isNegative_eq_false unsigned]
    simp only [Bool.false_eq_true, if_false, UInt64.size]
    omega
  · have isFinite : x.isFinite = true := unsigned.isFinite_iff.2 finite
    rw [isFinite, ceiling_eq unsigned finite]
    simp only [Bool.false_eq_true, if_false, if_true, UInt64.size]
    omega

end Ceiling

end Binary64

end Horizon
