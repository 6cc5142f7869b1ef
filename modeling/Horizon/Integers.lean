/-! Ranges of consecutive integers, and integers of 64 bits.

Quantities are integers of 64 bits in two's complement. They are kept as integers, and the sums and
differences of such quantities are wrapped around, once: whether the steps in between wrap around
too makes no difference (`wrap_add_wrap`).
-/

set_option autoImplicit false

namespace Horizon

def IsWord (n : Int) : Prop :=
  Int64.minValue.toInt ≤ n ∧ n ≤ Int64.maxValue.toInt

instance (n : Int) : Decidable (IsWord n) :=
  inferInstanceAs (Decidable (_ ∧ _))

/-- The integer of 64 bits that arithmetic on such integers gives instead of `n`. -/
def wrap (n : Int) : Int :=
  n.toInt64.toInt

section Words

variable {n k l : Int}

theorem isWord_iff : IsWord n ↔ -9223372036854775808 ≤ n ∧ n ≤ 9223372036854775807 :=
  Iff.rfl

theorem wrap_eq_bmod (n : Int) : wrap n = n.bmod 18446744073709551616 :=
  Int64.toInt_ofInt

theorem wrap_add_wrap (n k : Int) : wrap (wrap n + k) = wrap (n + k) := by
  simp only [wrap_eq_bmod, Int.bmod_add_bmod]

theorem IsWord.wrap_eq (word : IsWord n) : wrap n = n := by
  rw [isWord_iff] at word
  rw [wrap_eq_bmod, Int.bmod_def]
  omega

theorem wrap_sub_eq_iff (word : IsWord k) (word' : IsWord l) :
    wrap (n - k) = l ↔ k = wrap (n - l) := by
  rw [isWord_iff] at word word'
  simp only [wrap_eq_bmod, Int.bmod_def]
  omega

end Words

def ascending (low high : Int) : List Int :=
  (List.range (high + 1 - low).toNat).map fun (i : Nat) => low + i

def descending (high low : Int) : List Int :=
  (List.range (high + 1 - low).toNat).map fun (i : Nat) => high - i

theorem mem_ascending {low high n : Int} : n ∈ ascending low high ↔ low ≤ n ∧ n ≤ high := by
  simp only [ascending, List.mem_map, List.mem_range]
  constructor
  · rintro ⟨i, bound, rfl⟩
    omega
  · rintro ⟨above, below⟩
    exact ⟨(n - low).toNat, by omega, by omega⟩

theorem mem_descending {high low n : Int} : n ∈ descending high low ↔ low ≤ n ∧ n ≤ high := by
  simp only [descending, List.mem_map, List.mem_range]
  constructor
  · rintro ⟨i, bound, rfl⟩
    omega
  · rintro ⟨above, below⟩
    exact ⟨(high - n).toNat, by omega, by omega⟩

end Horizon
