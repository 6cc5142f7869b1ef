import Mathlib.Data.List.Basic
import Mathlib.Data.Nat.Digits.Defs
import Mathlib.Tactic.IntervalCases
import Horizon.Json.Decode
import Horizon.Proofs.Documents

/-! The numbers of a document.

The digits of a natural number have no leading zero, so its numeral is one that documents hold, and
what is read from it is the number (`unsigned?_natural`). The text of a finite number is put
together from the digits of its shortest decimal: whichever layout is chosen, it has a whole part, a
fraction or an exponent, and so it is a numeral of a document as well (`isNumber_compact`).
-/

set_option autoImplicit false

namespace Horizon

open Json Number

section Digits

theorem isDigits_digits (n : Nat) : IsDigits (digits n) where
  nonempty := Nat.toDigits_ne_nil
  digits _ member := Nat.isDigit_of_mem_toDigits (by decide) (by decide) member

-- Digits are appended at the end, so the first one is that of a smaller number.
theorem head?_digits {n : Nat} (positive : 0 < n) : (digits n).head? ≠ some '0' := by
  induction n using Nat.strongRecOn with
  | ind n ih =>
    rw [digits, Nat.toDigits_eq_if (by decide)]
    split
    · interval_cases n <;> decide
    · have smaller := ih (n / 10) (by omega) (by omega)
      have nonempty := (isDigits_digits (n / 10)).nonempty
      rw [digits] at smaller nonempty
      rwa [List.head?_append_of_ne_nil _ nonempty]

theorem isWhole_digits (n : Nat) : IsWhole (digits n) where
  toIsDigits := isDigits_digits n
  leading zero := by
    rcases Nat.eq_zero_or_pos n with rfl | positive
    · exact Nat.le_refl 1
    · exact absurd zero (head?_digits positive)

theorem isDigit_of_mem_zeros {count : Nat} {c : Char} (member : c ∈ zeros count) :
    c.isDigit = true := by
  rw [List.eq_of_mem_replicate member]
  rfl

theorem toList_repr (n : Nat) : n.repr.toList = digits n := by
  simp [digits, Nat.repr_eq_ofList_toDigits]

end Digits

section Naturals

theorem wellFormed_natural (n : Nat) : (Value.natural n).WellFormed := by
  have isMagnitude := IsMagnitude.intro (isWhole_digits n) .absent .absent
  rw [List.append_nil, List.append_nil] at isMagnitude
  rw [Value.natural, toList_repr]
  exact .number (.unsigned isMagnitude)

theorem digit?_of_isDigit {c : Char} (digit : c.isDigit = true) :
    digit? c = some (c.toNat - 48) := by
  have range : '0' ≤ c ∧ c ≤ '9' := by simpa [Char.isDigit, Char.le_def] using digit
  rw [digit?, if_pos range]

theorem takeDigits_of_digits {ds : List Char} (row : ∀ c ∈ ds, c.isDigit = true) :
    takeDigits ds = (ds.map fun c => c.toNat - 48, []) := by
  induction ds with
  | nil => rfl
  | cons d ds ih =>
    obtain ⟨digit, later⟩ := List.forall_mem_cons.1 row
    simp [takeDigits, digit?_of_isDigit digit, ih later]

theorem ofDigits_digits (n : Nat) : ofDigits ((digits n).map fun c => c.toNat - 48) = n := by
  rw [ofDigits, List.foldl_map]
  exact Nat.ofDigitChars_toDigits (by decide) (by decide)

theorem takeSign_of_digits {ds : List Char} (row : IsDigits ds) : takeSign ds = (false, ds) := by
  obtain ⟨nonempty, digits⟩ := row
  cases ds with
  | nil => exact absurd rfl nonempty
  | cons d ds =>
    have digit := digits d List.mem_cons_self
    have plus : d ≠ '+' := by
      rintro rfl
      exact absurd digit (by decide)
    have minus : d ≠ '-' := by
      rintro rfl
      exact absurd digit (by decide)
    simp [takeSign, plus, minus]

theorem read?_digits (n : Nat) :
    Numeral.read? (digits n) = some ⟨false, (digits n).map fun c => c.toNat - 48, [], none⟩ := by
  have row := isDigits_digits n
  simp [Numeral.read?, takeSign_of_digits row, takeDigits_of_digits row.digits, takeFraction,
    takeExponent, row.nonempty]

theorem unsigned?_natural {n : Nat} (inside : n < UInt64.size) :
    (Value.natural n).unsigned? = some n := by
  have numeral : (Value.natural n).numeral? =
      some ⟨false, (digits n).map fun c => c.toNat - 48, [], none⟩ := by
    rw [Value.natural, Value.numeral?, toList_repr, read?_digits]
  have plain : (Value.natural n).plainInteger? = some (n : Int) := by
    simp [Value.plainInteger?, numeral, ofDigits_digits]
  have bounds : 0 ≤ (n : Int) ∧ (n : Int) < (UInt64.size : Int) :=
    ⟨Int.natCast_nonneg n, Int.ofNat_lt.2 inside⟩
  rw [Value.unsigned?, plain, Option.bind_eq_bind, Option.bind_some, if_pos bounds,
    Int.toNat_natCast, Option.pure_def]

end Naturals

section Floats

def IsPointed (text : List Char) : Prop :=
  ∃ whole fraction, text = whole ++ '.' :: fraction ∧ IsWhole whole ∧ IsDigits fraction

theorem IsPointed.isMagnitude {text : List Char} (isPointed : IsPointed text) :
    IsMagnitude text := by
  obtain ⟨whole, fraction, rfl, isWhole, row⟩ := isPointed
  have isMagnitude := IsMagnitude.intro isWhole (.present row) .absent
  rwa [List.append_nil] at isMagnitude

theorem isDigits_drop {ds : List Char} (digits : ∀ c ∈ ds, c.isDigit = true) {n : Nat}
    (shorter : n < ds.length) : IsDigits (ds.drop n) where
  nonempty := by
    rw [Ne, List.drop_eq_nil_iff]
    exact Nat.not_le_of_lt shorter
  digits c member := digits c (List.mem_of_mem_drop member)

theorem isWhole_singleton {d : Char} (digit : d.isDigit = true) : IsWhole [d] where
  nonempty := List.cons_ne_nil d []
  digits c member := by
    cases List.mem_singleton.1 member
    exact digit
  leading _ := Nat.le_refl 1

-- Zeros are put in front until one digit stands before the point; if more stand there, they are
-- digits of the number, and the first of them is none.
theorem isPointed_pointed {ds : List Char} (isWhole : IsWhole ds) (less : Nat) :
    IsPointed (pointed (less + 1) ds) := by
  have digits : ∀ c ∈ zeros (less + 1 + 1 - ds.length) ++ ds, c.isDigit = true := by
    intro c member
    rcases List.mem_append.1 member with zero | digit
    · exact isDigit_of_mem_zeros zero
    · exact isWhole.digits c digit
  have length : (zeros (less + 1 + 1 - ds.length) ++ ds).length = max (less + 1 + 1) ds.length := by
    rw [List.length_append, zeros, List.length_replicate]
    omega
  refine ⟨_, _, rfl, ⟨⟨?_, fun c member => digits c (List.mem_of_mem_take member)⟩, fun zero => ?_⟩,
    isDigits_drop digits (by omega)⟩
  · rw [Ne, List.take_eq_nil_iff, ← List.length_eq_zero_iff, length]
    omega
  · by_cases short : ds.length ≤ less + 1 + 1
    · rw [List.length_take, length]
      omega
    · have none : less + 1 + 1 - ds.length = 0 := by omega
      rw [none, zeros, List.replicate_zero, List.nil_append, List.head?_take, if_neg (by omega)]
        at zero
      have long := isWhole.leading zero
      omega

theorem isWhole_append_zeros {n : Nat} (positive : 0 < n) (count : Nat) :
    IsWhole (digits n ++ zeros count) where
  nonempty := by simp [(isDigits_digits n).nonempty]
  digits c member := by
    rcases List.mem_append.1 member with digit | zero
    · exact (isDigits_digits n).digits c digit
    · exact isDigit_of_mem_zeros zero
  leading zero := by
    rw [List.head?_append_of_ne_nil _ (isDigits_digits n).nonempty] at zero
    exact absurd zero (head?_digits positive)

theorem isPointed_fractional (d : Decimal) : IsPointed d.fractional := by
  obtain ⟨coefficient, exponent⟩ := d
  cases exponent with
  | ofNat trailing =>
    refine ⟨(Decimal.mk coefficient (.ofNat trailing)).positional, ['0'], rfl, ?_,
      (isWhole_singleton rfl).toIsDigits⟩
    rw [Decimal.positional]
    dsimp only
    split
    · exact isWhole_singleton rfl
    · next positive => exact isWhole_append_zeros (Nat.pos_of_ne_zero positive) trailing
  | negSucc less => exact isPointed_pointed (isWhole_digits coefficient) less

theorem isSignedDigits_toString (n : Int) : IsSignedDigits (toString n).toList := by
  cases n with
  | ofNat n =>
    have text : (toString (Int.ofNat n)).toList = digits n := toList_repr n
    rw [text]
    exact .unsigned (isDigits_digits n)
  | negSucc n =>
    have text : (toString (Int.negSucc n)).toList = '-' :: digits (n + 1) := by
      rw [← toList_repr]
      simp [toString, Int.repr]
    rw [text]
    exact .signed (.inr rfl) (isDigits_digits (n + 1))

theorem isMagnitude_scientific (d : Decimal) : IsMagnitude d.scientific := by
  have row := isDigits_digits d.coefficient
  have isExponent : IsExponent ('e' :: (toString (d.pointPosition - 1)).toList) :=
    .present (.inl rfl) (isSignedDigits_toString _)
  rw [Decimal.scientific]
  generalize digits d.coefficient = ds at row
  obtain ⟨nonempty, digits⟩ := row
  cases ds with
  | nil => exact absurd rfl nonempty
  | cons first rest =>
    have isWhole := isWhole_singleton (digits first List.mem_cons_self)
    cases rest with
    | nil => exact .intro isWhole .absent isExponent
    | cons second rest =>
      have row : IsDigits (second :: rest) :=
        ⟨List.cons_ne_nil second rest, fun c member => digits c (List.mem_cons_of_mem first member)⟩
      exact .intro isWhole (.present row) isExponent

/-- The text of a finite number is a numeral of a document. -/
theorem isNumber_compact {x : Float} (finite : x.isFinite = true) :
    IsNumber (compact x).toList := by
  have isMagnitude : ∀ d : Decimal, ∀ scientific : Prop, [Decidable scientific] →
      IsMagnitude (if scientific then d.scientific else d.fractional) := by
    intro d scientific _
    split
    · exact isMagnitude_scientific d
    · exact (isPointed_fractional d).isMagnitude
  have number : x.isNaN = false := by
    rw [Float.isFinite, Float.Model.isFinite] at finite
    rw [Float.isNaN, Float.Model.isNaN]
    generalize x.toModel.unpack = unpacked at finite ⊢
    cases unpacked with
    | notANumber => cases finite
    | _ => rfl
  rw [compact, written, number, finite]
  simp only [Bool.false_eq_true, if_false, if_true, String.toList_ofList]
  split
  · exact .negative (isMagnitude _ _)
  · exact .unsigned (isMagnitude _ _)

theorem wellFormed_ofFloat (x : Float) : (Value.ofFloat x).WellFormed := by
  rw [Value.ofFloat]
  split
  · next finite => exact .number (isNumber_compact finite)
  · exact .null

end Floats

end Horizon
