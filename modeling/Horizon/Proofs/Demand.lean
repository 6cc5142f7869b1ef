import Mathlib.Tactic.MkIffOfInductiveProp
import Mathlib.Tactic.Ring
import Horizon.Proofs.Rational
import Horizon.Proofs.Lawful

/-! Tables of demand.

The entries of a table are its integers with their masses. Where the table is `Representable`, each
integer is listed once (`mem_support`, `nodup_map_fst_support`). A table is `Normalized` when its
masses sum to one, and `Fits` an instance when every level within the bounds has orders after which
no inventory is set to a bound (`Keeps`).
-/

set_option autoImplicit false

namespace Horizon

namespace Tabulated

section Support

variable {ρ : Type}

def values (d : Tabulated ρ) : List Int :=
  (List.range d.masses.size).map fun (i : Nat) => d.offset + i

/-- The integers of a table have 64 bits, and so has their number. -/
@[mk_iff]
structure Representable (d : Tabulated ρ) : Prop where
  length : d.masses.size < UInt64.size
  isWord : ∀ k ∈ d.values, IsWord k

instance (d : Tabulated ρ) : Decidable d.Representable :=
  decidable_of_iff _ d.representable_iff.symm

variable {d : Tabulated ρ} {k : Int} {p : ρ}

theorem mem_values : k ∈ d.values ↔ d.offset ≤ k ∧ k < d.offset + d.masses.size := by
  simp only [values, List.mem_map, List.mem_range]
  constructor
  · rintro ⟨i, bound, rfl⟩
    omega
  · rintro ⟨above, below⟩
    exact ⟨(k - d.offset).toNat, by omega, by omega⟩

theorem pairwise_values (d : Tabulated ρ) : d.values.Pairwise (· < ·) := by
  rw [values, List.pairwise_map]
  refine List.pairwise_lt_range.imp fun less => ?_
  omega

theorem map_snd_support (d : Tabulated ρ) : d.support.map Prod.snd = d.masses.toList := by
  apply List.ext_getElem
  · simp [support]
  · intro i _ _
    simp [support]

theorem mem_masses_of_mem_support {e : Int × ρ} (listed : e ∈ d.support) : e.2 ∈ d.masses := by
  refine Array.mem_toList_iff.1 ?_
  rw [← map_snd_support]
  exact List.mem_map_of_mem listed

namespace Representable

variable (represented : d.Representable)

include represented

theorem support_eq : d.support = d.masses.toList.mapIdx fun i m => (d.offset + i, m) := by
  apply List.ext_getElem
  · simp [support]
  · intro i inside _
    have bound : i < d.masses.size := by simpa [support] using inside
    have word := represented.isWord (d.offset + i) (mem_values.2 (by omega))
    simp [support, word.wrap_eq]

theorem map_fst_support : d.support.map Prod.fst = d.values := by
  rw [represented.support_eq]
  apply List.ext_getElem
  · simp [values]
  · intro i _ _
    simp [values]

theorem nodup_map_fst_support : (d.support.map Prod.fst).Nodup := by
  rw [represented.map_fst_support]
  exact d.pairwise_values.imp ne_of_lt

theorem mem_support : (k, p) ∈ d.support ↔ d.mass? k = some p := by
  rw [represented.support_eq, List.mem_mapIdx, mass?]
  constructor
  · rintro ⟨i, bound, same⟩
    cases same
    rw [add_sub_cancel_left]
    simp
  · intro found
    split at found
    · next i position =>
      obtain ⟨bound, rfl⟩ := Array.getElem?_eq_some_iff.1 found
      refine ⟨i, by simpa using bound, ?_⟩
      rw [← Int.ofNat_eq_natCast, ← position, add_sub_cancel]
      rfl
    · cases found

theorem mem_values_of_mem_support {e : Int × ρ} (listed : e ∈ d.support) : e.1 ∈ d.values := by
  rw [← represented.map_fst_support]
  exact List.mem_map_of_mem listed

theorem exists_mem_support (inside : k ∈ d.values) : ∃ p, (k, p) ∈ d.support := by
  rw [← represented.map_fst_support] at inside
  obtain ⟨⟨k, p⟩, listed, rfl⟩ := List.mem_map.1 inside
  exact ⟨p, listed⟩

variable (some : d.masses.isEmpty = false)

include some

theorem greatest_eq : d.greatest = d.offset + d.masses.size - 1 := by
  have size := Array.size_pos_iff.2 (Array.isEmpty_eq_false_iff.1 some)
  exact (represented.isWord _ (mem_values.2 (by omega))).wrap_eq

theorem least_le_greatest : d.least ≤ d.greatest := by
  have size := Array.size_pos_iff.2 (Array.isEmpty_eq_false_iff.1 some)
  rw [represented.greatest_eq some, least]
  omega

theorem mem_values_iff : k ∈ d.values ↔ d.least ≤ k ∧ k ≤ d.greatest := by
  rw [mem_values, represented.greatest_eq some, least]
  omega

end Representable

-- One entry of a table has the key that is looked for.
theorem filterMap_of_key {γ : Type} {xs : List (Int × ρ)} (distinct : (xs.map Prod.fst).Nodup)
    (member : (k, p) ∈ xs) (g : Int × ρ → γ) :
    xs.filterMap (fun e => if e.1 = k then some (g e) else none) = [g (k, p)] := by
  induction xs with
  | nil => cases member
  | cons e rest ih =>
    rw [List.map_cons, List.nodup_cons] at distinct
    rcases List.mem_cons.1 member with rfl | later
    · have others : rest.filterMap (fun e => if e.1 = k then some (g e) else none) = [] := by
        refine List.filterMap_eq_nil_iff.2 fun e listed => if_neg fun same => ?_
        exact distinct.1 (List.mem_map.2 ⟨e, listed, same⟩)
      simp only [List.filterMap_cons, if_true, others]
    · have other : e.1 ≠ k := fun same => distinct.1 (List.mem_map.2 ⟨(k, p), later, same.symm⟩)
      simp only [List.filterMap_cons, if_neg other]
      exact ih distinct.2 later

end Support

@[mk_iff]
structure Normalized (d : Tabulated ℚ) : Prop where
  nonneg : ∀ p ∈ d.masses, 0 ≤ p
  sum_eq : d.masses.toList.sum = 1

instance (d : Tabulated ℚ) : Decidable d.Normalized :=
  decidable_of_iff _ d.normalized_iff.symm

theorem ofMasses_ok_iff {ρ : Type} [Scalar ρ] {offset : Int} {masses : Array ρ} {d : Tabulated ρ} :
    ofMasses offset masses = .ok d ↔ (∀ m ∈ masses, Scalar.isMass m = true) ∧
      Scalar.le (Scalar.total masses.toList) 0 = false ∧
      d = ⟨offset, masses.map (· / Scalar.total masses.toList)⟩ := by
  rw [ofMasses, ← Array.all_eq_true_iff_forall_mem, ← Bool.not_eq_true (Scalar.le _ _)]
  dsimp only
  split_ifs with all none
  · exact ⟨nofun, fun ⟨_, positive, _⟩ => absurd none positive⟩
  · rw [Except.ok.injEq, eq_comm, and_iff_right all, and_iff_right none]
  · exact ⟨nofun, fun ⟨usable, _⟩ => absurd usable all⟩

theorem ofMasses_eq_ok_iff {offset : Int} {masses : Array ℚ} {d : Tabulated ℚ} :
    ofMasses offset masses = .ok d ↔ (∀ m ∈ masses, 0 ≤ m) ∧ 0 < masses.toList.sum ∧
      d = ⟨offset, masses.map (· / masses.toList.sum)⟩ := by
  rw [ofMasses_ok_iff, Rational.total_eq_sum, Bool.eq_false_iff, Ne, Rational.le_iff, not_le]
  simp [Scalar.isMass, Scalar.isFinite]

theorem normalized_of_ofMasses {offset : Int} {masses : Array ℚ} {d : Tabulated ℚ}
    (built : ofMasses offset masses = .ok d) : d.Normalized := by
  obtain ⟨usable, positive, rfl⟩ := ofMasses_eq_ok_iff.1 built
  refine ⟨fun p member => ?_, ?_⟩
  · obtain ⟨m, given, rfl⟩ := Array.mem_map.1 member
    exact div_nonneg (usable m given) positive.le
  · rw [Array.toList_map]
    simp only [div_eq_mul_inv]
    rw [List.sum_map_mul_right, List.map_id', mul_inv_cancel₀ positive.ne']

variable {d : Tabulated ℚ}

theorem Normalized.nonneg_of_mem_support (normalized : d.Normalized) {e : Int × ℚ}
    (listed : e ∈ d.support) : 0 ≤ e.2 :=
  normalized.nonneg _ (mem_masses_of_mem_support listed)

theorem Normalized.isEmpty_masses (normalized : d.Normalized) : d.masses.isEmpty = false := by
  rw [Array.isEmpty_eq_false_iff]
  intro empty
  have sum := normalized.sum_eq
  rw [empty] at sum
  cases sum

end Tabulated

namespace LotSizing

open Tabulated

@[mk_iff]
structure Representable {ρ : Type} (m : LotSizing ρ) : Prop where
  least : IsWord m.least
  greatest : IsWord m.greatest
  demand : ∀ d ∈ m.demand, d.Representable

instance {ρ : Type} (m : LotSizing ρ) : Decidable m.Representable :=
  decidable_of_iff _ m.representable_iff.symm

@[mk_iff]
structure HasWords {ρ : Type} (m : LotSizing ρ) (d : Tabulated ρ) : Prop where
  least : IsWord m.least
  greatest : IsWord m.greatest
  represented : d.Representable

instance {ρ : Type} (m : LotSizing ρ) (d : Tabulated ρ) : Decidable (m.HasWords d) :=
  decidable_of_iff _ (m.hasWords_iff d).symm

theorem Representable.hasWords {ρ : Type} {m : LotSizing ρ} {d : Tabulated ρ} {t : Nat}
    (represented : m.Representable) (found : m.demand[t]? = some d) : m.HasWords d :=
  ⟨represented.least, represented.greatest, represented.demand d (Array.mem_of_getElem? found)⟩

/-- A demand for which every level within the bounds has orders that keep the inventory there, and
the largest of them has 64 bits. -/
@[mk_iff]
structure Fits (m : LotSizing ℚ) (d : Tabulated ℚ) : Prop where
  normalized : d.Normalized
  nonneg : 0 ≤ d.least
  spread : d.greatest - d.least ≤ m.greatest - m.least
  reach : IsWord (m.greatest - m.least + d.least)

instance (m : LotSizing ℚ) (d : Tabulated ℚ) : Decidable (m.Fits d) :=
  decidable_of_iff _ (m.fits_iff d).symm

variable {m : LotSizing ℚ} {d : Tabulated ℚ} {t : Nat} {x q : Int}

theorem clamp_of_mem {i : Int} (above : m.least ≤ i) (below : i ≤ m.greatest) : m.clamp i = i := by
  rw [clamp, min_eq_right below, max_eq_right above]

theorem Fits.least_le_greatest (fits : m.Fits d) (represented : d.Representable) :
    d.least ≤ d.greatest :=
  represented.least_le_greatest fits.normalized.isEmpty_masses

section Range

variable (found : m.demand[t]? = some d) (fits : m.Fits d) (represented : d.Representable)
  (uncapped : m.capacity = none) (above : m.least ≤ x) (below : x ≤ m.greatest)

include found fits represented uncapped above below

-- The sums that bound the orders lie between the reach of the demand and its opposite.
theorem orderRange_eq : m.orderRange ⟨t, x⟩ =
    (max 0 (m.least + d.greatest - x), m.greatest + d.least - x) := by
  have nonneg := fits.nonneg
  have spread := fits.spread
  have range := fits.least_le_greatest represented
  have reach := fits.reach
  have smallest : IsWord (m.least + d.greatest - x) := by
    rw [isWord_iff] at reach ⊢
    omega
  have largest : IsWord (m.greatest + d.least - x) := by
    rw [isWord_iff] at reach ⊢
    omega
  have room : max 0 (m.least + d.greatest - x) ≤ m.greatest + d.least - x := by omega
  simp only [orderRange, demandRange, found, limit, uncapped, smallest.wrap_eq, largest.wrap_eq,
    if_pos room]

theorem orders_eq : m.orders ⟨t, x⟩ =
    (ascending (max 0 (m.least + d.greatest - x)) (m.greatest + d.least - x)).map Order.mk := by
  simp only [orders, orderRange_eq found fits represented uncapped above below]

-- There are no more orders than levels, and an order takes up less.
theorem listsOrders_of_listsLevels (lists : m.listsLevels = true) :
    m.listsOrders ⟨t, x⟩ = true := by
  have range := fits.least_le_greatest represented
  have levels := of_decide_eq_true lists
  simp only [listsOrders, orderRange_eq found fits represented uncapped above below, hasOrders,
    uncapped, Bool.true_and, decide_eq_true_iff]
  omega

end Range

def Keeps (m : LotSizing ℚ) (d : Tabulated ℚ) (x q : Int) : Prop :=
  m.least ≤ x + q - d.greatest ∧ x + q - d.least ≤ m.greatest

theorem Keeps.bounds_of_mem_values (keeps : m.Keeps d x q) (normalized : d.Normalized)
    (represented : d.Representable) {demand : Int} (inside : demand ∈ d.values) :
    m.least ≤ x + q - demand ∧ x + q - demand ≤ m.greatest := by
  obtain ⟨above, below⟩ := (represented.mem_values_iff normalized.isEmpty_masses).1 inside
  obtain ⟨least, greatest⟩ := keeps
  omega

end LotSizing

end Horizon
