import Mathlib.Algebra.BigOperators.Finprod
import Horizon.Proofs.Binary64
import Horizon.Proofs.Demand

/-! What is asked of a table of masses agrees.

A table cannot be built from masses that cannot be used, or are all zero (`ofMasses_error_iff`).
One that can be built, and whose integers have 64 bits, has the cumulative mass of an integer as the
sum of the masses up to there (`cdf_eq_finsum`), and a quantile is reached at an integer just when
it is not above the cumulative mass (`inverseCdf_le_iff`), so the quantiles are the least integers
that reach them, whatever zeros there are among the masses. All this is as long as the integers up
to there can be counted: all integers of 64 bits cannot be (`tables_wrap_around`).
-/

set_option autoImplicit false

namespace Horizon

namespace Tabulated

section Failing

variable {ρ : Type} [Scalar ρ]

def Unusable (masses : Array ρ) : Prop :=
  ∃ m ∈ masses, Scalar.lt m 0 = true ∨ Scalar.isFinite m = false

theorem all_isMass_iff [Scalar.Comparable ρ] {masses : Array ρ} :
    masses.all Scalar.isMass = true ↔ ¬Unusable masses := by
  rw [Array.all_eq_true_iff_forall_mem, Unusable]
  simp only [Scalar.isMass_eq_true_iff, not_exists, not_and]

theorem ofMasses_error_iff [Scalar.Additive ρ] [Scalar.Comparable ρ] [Scalar.Vanishing ρ]
    (offset : Int) (masses : Array ρ) :
    (∃ e, ofMasses offset masses = .error e) ↔
      Unusable masses ∨ ∀ m ∈ masses, Scalar.Same m 0 := by
  rw [ofMasses]
  by_cases usable : masses.all Scalar.isMass = true
  · have listed : ∀ m ∈ masses.toList, Scalar.isMass m = true := fun m member =>
      Array.all_eq_true_iff_forall_mem.1 usable m (Array.mem_toList_iff.1 member)
    have zeros : Scalar.le (Scalar.total masses.toList) 0 = true ↔
        ∀ m ∈ masses, Scalar.Same m 0 := by
      simpa using Scalar.total_le_zero_iff_zeros listed
    rw [if_pos usable, ← zeros, or_iff_right (all_isMass_iff.1 usable)]
    by_cases none : Scalar.le (Scalar.total masses.toList) 0 = true <;> simp [none]
  · rw [if_neg usable]
    exact iff_of_true ⟨.mass, rfl⟩ (.inl (not_not.1 (mt all_isMass_iff.2 usable)))

end Failing

section Prefixes

theorem sum_take (xs : List ℚ) (n : Nat) :
    (xs.take n).sum = ∑ i ∈ Finset.range n, xs[i]?.getD 0 := by
  induction n with
  | zero => simp
  | succ n ih =>
    rw [List.take_add_one, List.sum_append, ih, Finset.sum_range_succ]
    cases xs[n]? <;> simp

theorem sum_take_mono {xs : List ℚ} (nonneg : ∀ m ∈ xs, 0 ≤ m) {n n' : Nat} (le : n ≤ n') :
    (xs.take n).sum ≤ (xs.take n').sum := by
  refine List.Sublist.sum_le_sum (List.take_sublist_take_left le) fun m member => ?_
  exact nonneg m (List.mem_of_mem_take member)

-- The first index at which the masses reach a quantile tells all that do from all that do not.
theorem firstReaching_mapIdx {quantile : ℚ} {xs : List ℚ} (nonneg : ∀ m ∈ xs, 0 ≤ m) {below : ℚ}
    (short : below < quantile) (reached : quantile ≤ below + xs.sum) (offset : Int) :
    ∃ i : Nat, firstReaching quantile below (xs.mapIdx fun i m => (offset + i, m)) =
      some (offset + i) ∧ ∀ n, quantile ≤ below + (xs.take n).sum ↔ i < n := by
  induction xs generalizing below offset with
  | nil =>
    rw [List.sum_nil, add_zero] at reached
    exact absurd short reached.not_gt
  | cons m rest ih =>
    have later : ∀ m ∈ rest, 0 ≤ m := fun m member => nonneg m (List.mem_cons_of_mem _ member)
    rw [List.mapIdx_cons, firstReaching]
    by_cases here : quantile ≤ below + m
    · refine ⟨0, if_pos ((Rational.le_iff _ _).2 here), fun n => ?_⟩
      cases n with
      | zero => simpa using short
      | succ n =>
        have more : 0 ≤ (rest.take n).sum :=
          List.sum_nonneg fun m member => later m (List.mem_of_mem_take member)
        rw [List.take_succ_cons, List.sum_cons]
        exact iff_of_true (by linarith) n.succ_pos
    · rw [if_neg (mt (Rational.le_iff _ _).1 here)]
      rw [List.sum_cons, ← add_assoc] at reached
      obtain ⟨i, found, least⟩ := ih later (not_le.1 here) reached (offset + 1)
      have moved : ∀ i : Nat, offset + (i + 1 : Nat) = offset + 1 + i := by
        intro i
        push_cast
        ring
      refine ⟨i + 1, by simpa only [moved] using found, fun n => ?_⟩
      cases n with
      | zero => simpa using short
      | succ n =>
        rw [List.take_succ_cons, List.sum_cons, ← add_assoc, least n]
        exact Nat.succ_lt_succ_iff.symm

end Prefixes

section Queries

variable {d : Tabulated ℚ} {x y : Int}

theorem pmf_of_lt (below : x < d.least) : d.pmf x = 0 := by
  obtain ⟨i, position⟩ := Int.eq_negSucc_of_lt_zero (sub_neg.2 below)
  rw [pmf, mass?]
  split
  · next i' position' => cases position.symm.trans position'
  · rfl

theorem pmf_offset_add (d : Tabulated ℚ) (i : Nat) :
    d.pmf (d.offset + i) = d.masses.toList[i]?.getD 0 := by
  rw [pmf, mass?, add_sub_cancel_left, Array.getElem?_toList]

theorem pmf_of_ge (beyond : d.offset + d.masses.size ≤ x) : d.pmf x = 0 := by
  obtain ⟨i, rfl⟩ : ∃ i : Nat, x = d.offset + i := ⟨(x - d.offset).toNat, by omega⟩
  have outside : d.masses.toList.length ≤ i := by
    rw [Array.length_toList]
    omega
  rw [pmf_offset_add, List.getElem?_eq_none outside, Option.getD_none]

def countThrough (d : Tabulated ℚ) (x : Int) : Nat :=
  (x + 1 - d.least).toNat

/-- The integers up to which those of a table can be counted with 64 bits. -/
def countable (d : Tabulated ℚ) : Set Int :=
  {x | d.countThrough x < UInt64.size}

instance (d : Tabulated ℚ) : DecidablePred (· ∈ d.countable) :=
  fun x => inferInstanceAs (Decidable (d.countThrough x < UInt64.size))

-- With 64 bits only the whole range of integers cannot be counted.
theorem mem_countable_iff (word : IsWord d.least) (word' : IsWord x) :
    x ∈ d.countable ↔ x < 2 ^ 63 - 1 ∨ -2 ^ 63 < d.least := by
  rw [isWord_iff] at word word'
  rw [countable, Set.mem_ofPred_eq, countThrough, UInt64.size]
  omega

theorem finsum_pmf (d : Tabulated ℚ) (x : Int) :
    ∑ᶠ k ∈ Set.Iic x, d.pmf k = (d.masses.toList.take (d.countThrough x)).sum := by
  have injective : Set.InjOn (fun i : Nat => d.offset + i) (Finset.range (d.countThrough x)) :=
    fun i _ j _ same => by simpa using same
  have listed : Set.Iic x ∩ Function.support d.pmf =
      (((Finset.range (d.countThrough x)).image fun i : Nat => d.offset + i : Finset Int) :
        Set Int) ∩ Function.support d.pmf := by
    ext k
    simp only [Set.mem_inter_iff, Set.mem_Iic, Function.mem_support, Finset.coe_image,
      Finset.coe_range, Set.mem_image, Set.mem_Iio, and_congr_left_iff]
    intro some
    have inside : d.least ≤ k := not_lt.1 fun below => some (pmf_of_lt below)
    rw [countThrough]
    rw [least] at inside ⊢
    constructor
    · intro le
      exact ⟨(k - d.offset).toNat, by omega, by omega⟩
    · rintro ⟨i, before, rfl⟩
      omega
  rw [finsum_mem_eq_sum_of_inter_support_eq _ listed, Finset.sum_image injective, sum_take]
  exact Finset.sum_congr rfl fun i _ => d.pmf_offset_add i

namespace Normalized

variable (normalized : d.Normalized)

include normalized

theorem nonneg_toList : ∀ m ∈ d.masses.toList, 0 ≤ m := fun m member =>
  normalized.nonneg m (Array.mem_toList_iff.1 member)

theorem sum_take_le_one (n : Nat) : (d.masses.toList.take n).sum ≤ 1 := by
  rw [← normalized.sum_eq]
  exact List.Sublist.sum_le_sum (List.take_sublist n _) normalized.nonneg_toList

theorem cdf_eq (counted : x ∈ d.countable) :
    d.cdf x = (d.masses.toList.take (d.countThrough x)).sum := by
  rw [countable, Set.mem_ofPred_eq] at counted
  rw [cdf]
  split
  · next i position =>
    have count : d.countThrough x = i + 1 := by
      rw [Int.ofNat_eq_natCast] at position
      rw [countThrough, least]
      omega
    rw [count] at counted ⊢
    rw [Nat.mod_eq_of_lt counted, Scalar.minimum, Rational.total_eq_sum]
    split
    · rfl
    · next whole =>
      rw [Rational.lt_iff, not_lt] at whole
      exact whole.antisymm (normalized.sum_take_le_one _)
  · next i position =>
    have count : d.countThrough x = 0 := by
      have := Int.negSucc_lt_zero i
      rw [countThrough, least]
      omega
    rw [count]
    rfl

theorem cdf_eq_finsum (counted : x ∈ d.countable) : d.cdf x = ∑ᶠ k ∈ Set.Iic x, d.pmf k := by
  rw [normalized.cdf_eq counted, finsum_pmf]

theorem cdf_mono : MonotoneOn d.cdf d.countable := by
  intro x counted y counted' le
  rw [normalized.cdf_eq counted, normalized.cdf_eq counted']
  refine sum_take_mono normalized.nonneg_toList ?_
  rw [countThrough, countThrough]
  omega

theorem cdf_of_lt (below : x < d.least) : d.cdf x = 0 := by
  have none : d.countThrough x = 0 := Int.toNat_of_nonpos (by omega)
  have counted : x ∈ d.countable := by
    rw [countable, Set.mem_ofPred_eq, none]
    decide
  rw [normalized.cdf_eq counted, none, List.take_zero, List.sum_nil]

variable (represented : d.Representable)

include represented

theorem greatest_eq : d.greatest = d.offset + d.masses.size - 1 :=
  represented.greatest_eq normalized.isEmpty_masses

theorem isWord_least : IsWord d.least :=
  represented.isWord _ ((represented.mem_values_iff normalized.isEmpty_masses).2
    ⟨le_refl _, represented.least_le_greatest normalized.isEmpty_masses⟩)

theorem mem_support_iff {p : ℚ} :
    (x, p) ∈ d.support ↔ d.least ≤ x ∧ x ≤ d.greatest ∧ d.pmf x = p := by
  have values := represented.mem_values_iff normalized.isEmpty_masses (k := x)
  rw [pmf]
  constructor
  · intro listed
    obtain ⟨above, below⟩ := values.1 (represented.mem_values_of_mem_support listed)
    rw [represented.mem_support.1 listed]
    exact ⟨above, below, rfl⟩
  · rintro ⟨above, below, rfl⟩
    obtain ⟨p, listed⟩ := represented.exists_mem_support (values.2 ⟨above, below⟩)
    rw [represented.mem_support.1 listed]
    exact listed

theorem pmf_of_gt (above : d.greatest < x) : d.pmf x = 0 := by
  rw [normalized.greatest_eq represented] at above
  exact pmf_of_ge (by omega)

theorem cdf_of_ge (above : d.greatest ≤ x) (counted : x ∈ d.countable) : d.cdf x = 1 := by
  have whole : d.masses.toList.length ≤ d.countThrough x := by
    rw [normalized.greatest_eq represented] at above
    rw [Array.length_toList, countThrough, least]
    omega
  rw [normalized.cdf_eq counted, List.take_of_length_le whole, normalized.sum_eq]

section Quantile

variable {quantile : ℚ} (positive : 0 < quantile) (le_one : quantile ≤ 1)

include positive le_one

-- A quantile is an integer of the table, and is at most `n` integers from its start just when those
-- reach it.
theorem exists_inverseCdf : ∃ i < d.masses.size, d.inverseCdf quantile = d.offset + i ∧
    ∀ n, quantile ≤ (d.masses.toList.take n).sum ↔ i < n := by
  obtain ⟨i, found, first⟩ := firstReaching_mapIdx normalized.nonneg_toList positive
    (by rwa [zero_add, normalized.sum_eq]) d.offset
  simp only [zero_add] at first
  refine ⟨i, ?_, ?_, first⟩
  · rw [← first, ← Array.length_toList, List.take_length, normalized.sum_eq]
    exact le_one
  · rw [inverseCdf, represented.support_eq, found, Option.getD_some]

theorem inverseCdf_le_iff (counted : x ∈ d.countable) :
    d.inverseCdf quantile ≤ x ↔ quantile ≤ d.cdf x := by
  obtain ⟨i, -, found, first⟩ := normalized.exists_inverseCdf represented positive le_one
  rw [normalized.cdf_eq counted, first, found, countThrough, least]
  omega

theorem inverseCdf_mem_countable : d.inverseCdf quantile ∈ d.countable := by
  obtain ⟨i, inside, found, -⟩ := normalized.exists_inverseCdf represented positive le_one
  have length := represented.length
  rw [countable, Set.mem_ofPred_eq, countThrough, least, found]
  omega

theorem isLeast_inverseCdf :
    IsLeast {x ∈ d.countable | quantile ≤ d.cdf x} (d.inverseCdf quantile) := by
  have itself := normalized.inverseCdf_mem_countable represented positive le_one
  refine ⟨⟨itself, ?_⟩, fun x reached => ?_⟩
  · exact (normalized.inverseCdf_le_iff represented positive le_one itself).1 le_rfl
  · exact (normalized.inverseCdf_le_iff represented positive le_one reached.1).2 reached.2

end Quantile

theorem inverseCdf_mono : MonotoneOn d.inverseCdf (Set.Ioc 0 1) := by
  rintro q ⟨positive, le_one⟩ r ⟨positive', le_one'⟩ le
  obtain ⟨counted, reached⟩ := (normalized.isLeast_inverseCdf represented positive' le_one').1
  exact (normalized.inverseCdf_le_iff represented positive le_one counted).2 (le.trans reached)

theorem mean_bounds : (d.least : ℚ) ≤ d.mean ∧ d.mean ≤ d.greatest := by
  have weighted : ∀ x : ℚ, (d.support.map fun e => x * e.2).sum = x := by
    intro x
    rw [List.sum_map_mul_left, map_snd_support, normalized.sum_eq, mul_one]
  have inside : ∀ e ∈ d.support, d.least ≤ e.1 ∧ e.1 ≤ d.greatest := fun e listed =>
    (represented.mem_values_iff normalized.isEmpty_masses).1
      (represented.mem_values_of_mem_support listed)
  rw [mean, Rational.total_eq_sum]
  constructor
  · rw [← weighted d.least]
    refine List.sum_le_sum fun e listed => ?_
    exact mul_le_mul_of_nonneg_right (Int.cast_le.2 (inside e listed).1)
      (normalized.nonneg_of_mem_support listed)
  · rw [← weighted d.greatest]
    refine List.sum_le_sum fun e listed => ?_
    exact mul_le_mul_of_nonneg_right (Int.cast_le.2 (inside e listed).2)
      (normalized.nonneg_of_mem_support listed)

end Normalized

end Queries

/-- A table is that of some masses from an integer on, renormalized, and what is asked of it
agrees. -/
structure Describes (d : Tabulated ℚ) (offset : Int) (masses : Array ℚ) : Prop where
  least_eq : d.least = offset
  greatest_eq : d.greatest = offset + masses.size - 1
  proportional : ∃ mass > 0, ∀ i : Nat, masses[i]?.getD 0 = mass * d.pmf (offset + i)
  support_iff : ∀ x p, (x, p) ∈ d.support ↔ d.least ≤ x ∧ x ≤ d.greatest ∧ d.pmf x = p
  sum_eq : (d.support.map Prod.snd).sum = 1
  pmf_outside : ∀ x, x < d.least ∨ d.greatest < x → d.pmf x = 0
  countable_iff : ∀ x, IsWord x → (x ∈ d.countable ↔ x < 2 ^ 63 - 1 ∨ -2 ^ 63 < d.least)
  cdf_eq : ∀ x ∈ d.countable, d.cdf x = ∑ᶠ k ∈ Set.Iic x, d.pmf k
  cdf_mono : MonotoneOn d.cdf d.countable
  cdf_below : ∀ x < d.least, d.cdf x = 0
  cdf_above : ∀ x ∈ d.countable, x ≥ d.greatest → d.cdf x = 1
  reached : ∀ quantile, 0 < quantile → quantile ≤ 1 → ∀ x ∈ d.countable,
    d.inverseCdf quantile ≤ x ↔ quantile ≤ d.cdf x
  smallest : ∀ quantile, 0 < quantile → quantile ≤ 1 →
    IsLeast {x ∈ d.countable | quantile ≤ d.cdf x} (d.inverseCdf quantile)
  quantile_mono : MonotoneOn d.inverseCdf (Set.Ioc 0 1)
  mean_bounds : (d.least : ℚ) ≤ d.mean ∧ d.mean ≤ d.greatest

theorem describes_of_ofMasses {offset : Int} {masses : Array ℚ} {d : Tabulated ℚ}
    (built : ofMasses offset masses = .ok d) (represented : d.Representable) :
    d.Describes offset masses := by
  have normalized := normalized_of_ofMasses built
  have last := normalized.greatest_eq represented
  obtain ⟨-, positive, rfl⟩ := ofMasses_eq_ok_iff.1 built
  rw [Array.size_map] at last
  exact
    { least_eq := rfl
      greatest_eq := last
      proportional := by
        refine ⟨_, positive, fun i => ?_⟩
        rw [pmf_offset_add, Array.getElem?_toList, Array.getElem?_map]
        cases masses[i]? with
        | none => exact (mul_zero _).symm
        | some m => exact (mul_div_cancel₀ m positive.ne').symm
      support_iff := fun x p => normalized.mem_support_iff represented
      sum_eq := by rw [map_snd_support, normalized.sum_eq]
      pmf_outside := fun x outside => outside.elim pmf_of_lt (normalized.pmf_of_gt represented)
      countable_iff := fun x => mem_countable_iff (normalized.isWord_least represented)
      cdf_eq := fun x => normalized.cdf_eq_finsum
      cdf_mono := normalized.cdf_mono
      cdf_below := fun x => normalized.cdf_of_lt
      cdf_above := fun x counted above => normalized.cdf_of_ge represented above counted
      reached := fun q positive le_one x =>
        normalized.inverseCdf_le_iff represented positive le_one
      smallest := fun q => normalized.isLeast_inverseCdf represented
      quantile_mono := normalized.inverseCdf_mono represented
      mean_bounds := normalized.mean_bounds represented }

end Tabulated

open Tabulated

end Horizon
