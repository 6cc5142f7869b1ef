import Mathlib.Algebra.BigOperators.Group.Finset.Basic
import Mathlib.Data.List.Destutter
import Horizon.Proofs.Demand
import Horizon.Proofs.Masses

/-! Where an order leads, whatever its quantity and the inventory are.

The outcomes are the inventories that the demands of the table lead to, set to the bounds
(`mem_ends_iff`), and the mass of an inventory is that of the demands that lead to it
(`probability_eq_sum`): looking up the one demand that leads to an inventory inside the bounds finds
what going through the table would find (`landing_of_isInside`). Where nothing wraps around
(`Unwrapped`), higher demands lead to lower inventories, so each outcome is listed once, and no mass
is lost at the bounds: a sum over the outcomes of what the demands of each contribute is one over
the demands (`sum_landing_ends`).
-/

set_option autoImplicit false

namespace Horizon

section Lists

variable {β κ γ : Type}

theorem filterMap_ite (xs : List β) (p : β → Prop) [DecidablePred p] (g : β → γ) :
    xs.filterMap (fun x => if p x then some (g x) else none) = (xs.filter p).map g := by
  induction xs with
  | nil => rfl
  | cons x rest ih =>
    by_cases holds : p x
    · simp only [List.filterMap_cons, if_pos holds, ih, List.filter_cons, decide_eq_true holds,
        List.map_cons, if_true]
    · simp only [List.filterMap_cons, if_neg holds, ih, List.filter_cons, decide_eq_false holds,
        Bool.false_eq_true, if_false]

theorem sum_map_fiberwise {M : Type} [AddCommMonoid M] [DecidableEq κ] {xs : List β}
    {keys : List κ} (distinct : xs.Nodup) (distinctKeys : keys.Nodup) {key : β → κ}
    (listed : ∀ x ∈ xs, key x ∈ keys) (term : β → M) :
    (keys.map fun k => ((xs.filter fun x => key x = k).map term).sum).sum =
      (xs.map term).sum := by
  classical
  have group : ∀ k, ((xs.filter fun x => key x = k).map term).sum =
      ∑ x ∈ xs.toFinset with key x = k, term x := by
    intro k
    rw [← List.sum_toFinset term (distinct.filter _), List.toFinset_filter]
    simp only [decide_eq_true_iff]
  simp only [group]
  rw [← List.sum_toFinset _ distinctKeys, ← List.sum_toFinset _ distinct]
  refine Finset.sum_fiberwise_of_maps_to (fun x member => ?_) term
  exact List.mem_toFinset.2 (listed x (List.mem_toFinset.1 member))

end Lists

namespace Tabulated

variable {d : Tabulated ℚ}

theorem Normalized.exists_pos (normalized : d.Normalized) : ∃ e ∈ d.support, 0 < e.2 := by
  refine List.exists_lt_of_sum_lt (fun _ => 0) Prod.snd ?_
  rw [map_snd_support, normalized.sum_eq]
  simp

end Tabulated

namespace LotSizing

open Tabulated

section Repeats

variable {β : Type} [DecidableEq β]

theorem cons_dropRepeats (x : β) (xs : List β) :
    x :: dropRepeats (some x) xs = xs.destutter' (· ≠ ·) x := by
  induction xs generalizing x with
  | nil => rfl
  | cons y rest ih =>
    rw [dropRepeats, List.destutter']
    by_cases same : x = y
    · simp [same, ih]
    · simp [same, ih]

theorem dropRepeats_eq_destutter (xs : List β) : dropRepeats none xs = xs.destutter (· ≠ ·) := by
  cases xs with
  | nil => rfl
  | cons x rest =>
    rw [dropRepeats, if_neg (Option.some_ne_none x).symm]
    exact cons_dropRepeats x rest

end Repeats

def leadsTo {ρ : Type} (m : LotSizing ρ) (l : Level) (o : Order) (demand : Int) : Level :=
  ⟨l.period + 1, m.clamp (l.inventory + o.quantity - demand)⟩

/-- The bounds and the demands of a table have 64 bits, and so has what each demand leaves after an
order. -/
@[mk_iff]
structure Unwrapped {ρ : Type} (m : LotSizing ρ) (d : Tabulated ρ) (l : Level) (o : Order) : Prop
    extends m.HasWords d where
  rest : ∀ demand ∈ d.values, IsWord (l.inventory + o.quantity - demand)

instance {ρ : Type} (m : LotSizing ρ) (d : Tabulated ρ) (l : Level) (o : Order) :
    Decidable (m.Unwrapped d l o) :=
  decidable_of_iff _ (m.unwrapped_iff d l o).symm

theorem Unwrapped.wrap_eq {ρ : Type} {m : LotSizing ρ} {d : Tabulated ρ} {l : Level} {o : Order}
    (unwrapped : m.Unwrapped d l o) {e : Int × ρ} (listed : e ∈ d.support) :
    wrap (l.inventory + o.quantity - e.1) = l.inventory + o.quantity - e.1 :=
  (unwrapped.rest _ (unwrapped.represented.mem_values_of_mem_support listed)).wrap_eq

section Landing

variable {ρ : Type} {m : LotSizing ρ} {d : Tabulated ρ} {position inventory : Int}

theorem landing_eq_filterMap : m.landing d position inventory = d.support.filterMap fun e =>
    if m.clamp (wrap (position - e.1)) = inventory then some (wrap (position - e.1), e.2)
    else none :=
  rfl

theorem landing_eq_map_filter (m : LotSizing ρ) (d : Tabulated ρ) (position inventory : Int) :
    m.landing d position inventory =
      (d.support.filter fun e => m.clamp (wrap (position - e.1)) = inventory).map fun e =>
        (wrap (position - e.1), e.2) := by
  rw [landing_eq_filterMap, filterMap_ite]

theorem mem_landing {e : Int × ρ} : e ∈ m.landing d position inventory ↔
    ∃ k, (k, e.2) ∈ d.support ∧ m.clamp (wrap (position - k)) = inventory ∧
      wrap (position - k) = e.1 := by
  rw [landing_eq_map_filter, List.mem_map]
  constructor
  · rintro ⟨⟨k, p⟩, kept, rfl⟩
    obtain ⟨listed, leads⟩ := List.mem_filter.1 kept
    exact ⟨k, listed, of_decide_eq_true leads, rfl⟩
  · rintro ⟨k, listed, leads, same⟩
    exact ⟨(k, e.2), List.mem_filter.2 ⟨listed, decide_eq_true leads⟩, Prod.ext same rfl⟩

theorem clamp_eq_of_isInside {x : Int} (inside : m.isInside inventory = true) :
    m.clamp x = inventory ↔ x = inventory := by
  rw [isInside, Bool.and_eq_true, decide_eq_true_iff, decide_eq_true_iff] at inside
  rw [clamp]
  omega

theorem HasWords.isWord_of_isInside (words : m.HasWords d)
    (inside : m.isInside inventory = true) : IsWord inventory := by
  obtain ⟨least, greatest, -⟩ := words
  rw [isInside, Bool.and_eq_true, decide_eq_true_iff, decide_eq_true_iff] at inside
  rw [isWord_iff] at least greatest ⊢
  omega

-- Strictly inside the bounds at most one demand leads to an inventory.
theorem landing_of_isInside (words : m.HasWords d) (inside : m.isInside inventory = true) :
    m.landing d position inventory =
      (d.mass? (wrap (position - inventory))).toList.map fun mass => (inventory, mass) := by
  have represented := words.represented
  have only : m.landing d position inventory = d.support.filterMap fun e =>
      if e.1 = wrap (position - inventory) then some (inventory, e.2) else none := by
    rw [landing_eq_filterMap]
    refine List.filterMap_congr fun e listed => ?_
    have demand := represented.isWord _ (represented.mem_values_of_mem_support listed)
    have same : wrap (position - e.1) = inventory ↔ e.1 = wrap (position - inventory) :=
      wrap_sub_eq_iff demand (words.isWord_of_isInside inside)
    by_cases there : wrap (position - e.1) = inventory
    · rw [if_pos ((clamp_eq_of_isInside inside).2 there), if_pos (same.1 there), there]
    · rw [if_neg (mt (clamp_eq_of_isInside inside).1 there), if_neg (mt same.2 there)]
  rw [only]
  cases found : d.mass? (wrap (position - inventory)) with
  | some mass =>
    exact filterMap_of_key represented.nodup_map_fst_support (represented.mem_support.2 found)
      fun e => (inventory, e.2)
  | none =>
    refine List.filterMap_eq_nil_iff.2 fun e listed => if_neg fun same => ?_
    have entered := represented.mem_support.1 listed
    rw [same, found] at entered
    cases entered

end Landing

section Ends

variable {ρ : Type} {m : LotSizing ρ} {d : Tabulated ρ} {l f : Level} {o : Order}
  (found : m.demand[l.period]? = some d)

include found

theorem mem_ends_iff : f ∈ m.ends l o ↔ f.period = l.period + 1 ∧
    ∃ e ∈ d.support, m.clamp (wrap (l.inventory + o.quantity - e.1)) = f.inventory := by
  simp only [mem_ends, found, Option.some.injEq, exists_eq_left']

variable (unwrapped : m.Unwrapped d l o)

include unwrapped

theorem ends_eq_destutter : m.ends l o = (d.values.map (m.leadsTo l o)).destutter (· ≠ ·) := by
  simp only [ends, found]
  rw [dropRepeats_eq_destutter, ← unwrapped.represented.map_fst_support, List.map_map]
  refine congrArg (List.destutter _) (List.map_congr_left fun e listed => ?_)
  exact congrArg (fun x => Level.mk (l.period + 1) (m.clamp x)) (unwrapped.wrap_eq listed)

-- Clamping keeps the order of the inventories, so equal states follow each other and dropping
-- repeats one after the other drops all of them.
theorem pairwise_ends : (m.ends l o).Pairwise fun f g => g.inventory < f.inventory := by
  let falls (f g : Level) : Prop := f.period = g.period ∧ g.inventory ≤ f.inventory
  have antisymm : Std.Antisymm falls := by
    constructor
    rintro ⟨t, x⟩ ⟨t', x'⟩ ⟨period, above⟩ ⟨-, below⟩
    exact congrArg₂ Level.mk period (le_antisymm below above)
  have sorted : (d.values.map (m.leadsTo l o)).Pairwise falls := by
    rw [List.pairwise_map]
    refine d.pairwise_values.imp fun less => ⟨rfl, ?_⟩
    simp only [leadsTo, clamp]
    omega
  rw [ends_eq_destutter found unwrapped, sorted.destutter_eq_dedup]
  refine ((sorted.sublist (List.dedup_sublist _)).and (List.nodup_dedup _)).imp fun both => ?_
  obtain ⟨⟨period, atMost⟩, differs⟩ := both
  exact atMost.lt_of_ne fun same => differs (congrArg₂ Level.mk period same.symm)

theorem nodup_ends : (m.ends l o).Nodup :=
  (pairwise_ends found unwrapped).imp fun less same =>
    less.ne (congrArg Level.inventory same).symm

/-- What the demands that lead to an outcome contribute, summed over the outcomes, is what all
demands do: each leads to one outcome. -/
theorem sum_landing_ends {M : Type} [AddCommMonoid M] (term : Int × ρ → M) :
    ((m.ends l o).map fun f =>
        ((m.landing d (l.inventory + o.quantity) f.inventory).map term).sum).sum =
      (d.support.map fun e => term (l.inventory + o.quantity - e.1, e.2)).sum := by
  let lead (e : Int × ρ) : Level :=
    ⟨l.period + 1, m.clamp (wrap (l.inventory + o.quantity - e.1))⟩
  have distinct : d.support.Nodup := unwrapped.represented.nodup_map_fst_support.of_map
  have listed : ∀ e ∈ d.support, lead e ∈ m.ends l o :=
    fun e member => (mem_ends_iff found).2 ⟨rfl, e, member, rfl⟩
  have terms : d.support.map (fun e => term (l.inventory + o.quantity - e.1, e.2)) =
      d.support.map fun e => term (wrap (l.inventory + o.quantity - e.1), e.2) :=
    List.map_congr_left fun e member => by rw [unwrapped.wrap_eq member]
  rw [terms, ← sum_map_fiberwise distinct (nodup_ends found unwrapped) listed]
  refine congrArg List.sum (List.map_congr_left fun f outcome => ?_)
  have next : l.period + 1 = f.period := ((mem_ends_iff found).1 outcome).1.symm
  have same : ∀ e, lead e = f ↔ m.clamp (wrap (l.inventory + o.quantity - e.1)) = f.inventory :=
    fun e => ⟨congrArg Level.inventory, fun leads => Level.mk.injEq .. |>.mpr ⟨next, leads⟩⟩
  simp only [landing_eq_map_filter, List.map_map, same]
  rfl

end Ends

section Masses

variable {ρ : Type} [Scalar ρ] [Scalar.Exact ρ] {m : LotSizing ρ} {d : Tabulated ρ} {l : Level}
  (found : m.demand[l.period]? = some d)

include found

theorem probability_eq_sum (words : m.HasWords d) (o : Order) (f : Level) :
    m.probability l o f =
      ((m.landing d (l.inventory + o.quantity) f.inventory).map Prod.snd).sum := by
  simp only [probability, found]
  split
  · next inside =>
    rw [landing_of_isInside words inside, pmf]
    let _ : AddCommMonoid ρ := Scalar.exactAdd ρ
    cases d.mass? (wrap (l.inventory + o.quantity - f.inventory)) with
    | none => rfl
    | some p => exact (add_zero p).symm
  · exact Scalar.exact_total_eq_sum _

theorem sum_probability_ends {o : Order} (unwrapped : m.Unwrapped d l o) :
    ((m.ends l o).map (m.probability l o)).sum = d.masses.toList.sum := by
  let _ : AddCommMonoid ρ := Scalar.exactAdd ρ
  rw [funext (probability_eq_sum found unwrapped.toHasWords o), ← map_snd_support]
  exact sum_landing_ends found unwrapped Prod.snd

end Masses

section Found

variable {m : LotSizing ℚ} {d : Tabulated ℚ} {l f : Level} {o : Order}
  (found : m.demand[l.period]? = some d) (words : m.HasWords d) (nonneg : ∀ p ∈ d.masses, 0 ≤ p)

include nonneg

theorem nonneg_of_mem_landing {position inventory : Int} :
    ∀ p ∈ (m.landing d position inventory).map Prod.snd, 0 ≤ p := by
  intro p member
  obtain ⟨e, listed, rfl⟩ := List.mem_map.1 member
  obtain ⟨k, supported, -⟩ := mem_landing.1 listed
  exact nonneg _ (mem_masses_of_mem_support (e := (k, e.2)) supported)

include found words

theorem probability_nonneg : 0 ≤ m.probability l o f := by
  rw [probability_eq_sum found words]
  exact List.sum_nonneg (nonneg_of_mem_landing nonneg)

theorem probability_pos {e : Int × ℚ} (listed : e ∈ d.support) (positive : 0 < e.2)
    (leads : m.clamp (wrap (l.inventory + o.quantity - e.1)) = f.inventory) :
    0 < m.probability l o f := by
  have landed : (wrap (l.inventory + o.quantity - e.1), e.2) ∈
      m.landing d (l.inventory + o.quantity) f.inventory :=
    mem_landing.2 ⟨e.1, listed, leads, rfl⟩
  rw [probability_eq_sum found words]
  exact positive.trans_le (List.single_le_sum (nonneg_of_mem_landing nonneg) e.2
    (List.mem_map.2 ⟨_, landed, rfl⟩))

-- Not all demands are without mass, so neither are all outcomes.
theorem exists_probability_pos (some : ∃ e ∈ d.support, 0 < e.2) :
    ∃ f ∈ m.ends l o, 0 < m.probability l o f := by
  obtain ⟨e, listed, positive⟩ := some
  refine ⟨⟨l.period + 1, m.clamp (wrap (l.inventory + o.quantity - e.1))⟩, ?_, ?_⟩
  · exact (mem_ends_iff found).2 ⟨rfl, e, listed, rfl⟩
  · exact probability_pos found words nonneg listed positive rfl

theorem probability_pos_of_mem_ends (positive : ∀ p ∈ d.masses, 0 < p)
    (outcome : f ∈ m.ends l o) : 0 < m.probability l o f := by
  obtain ⟨-, e, listed, leads⟩ := (mem_ends_iff found).1 outcome
  exact probability_pos found words nonneg listed
    (positive _ (mem_masses_of_mem_support listed)) leads

end Found

end LotSizing

end Horizon
