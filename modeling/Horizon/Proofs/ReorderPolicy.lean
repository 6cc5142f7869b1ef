import Horizon.Inventory.Policy

/-! What the policy read off a table says of its rows.

In a table of a period (`Tabulates`) the orders may be placed at some levels and not at others. When
all that are placed lead to one level, and whoever is below a level at which an order is placed
orders too (`RaisesTo`), then the policy reproduces every order (`ofTable?_of_raisesTo`).
-/

set_option autoImplicit false

namespace Horizon.ReorderPolicy

variable {ρ : Type}

theorem lowest_mem (best : Level × Order) (rows : List (Level × Order)) :
    lowest best rows ∈ best :: rows := by
  induction rows generalizing best with
  | nil => exact List.mem_cons_self
  | cons row rest ih =>
    rw [lowest]
    split
    · exact List.mem_cons_of_mem best (ih row)
    · rcases List.mem_cons.1 (ih best) with same | later
      · rw [same]
        exact List.mem_cons_self
      · exact List.mem_cons_of_mem best (List.mem_cons_of_mem row later)

-- The greatest inventory of some rows is one of them, and none is greater.
theorem highest_spec (first : Level × Order) (rows : List (Level × Order)) :
    (∃ row ∈ first :: rows, highest first.1.inventory rows = row.1.inventory) ∧
      ∀ row ∈ first :: rows, row.1.inventory ≤ highest first.1.inventory rows := by
  induction rows generalizing first with
  | nil =>
    refine ⟨⟨first, List.mem_cons_self, rfl⟩, fun row member => ?_⟩
    rw [List.mem_singleton.1 member]
    exact Int.le_refl _
  | cons row rest ih =>
    rw [highest]
    rcases Int.le_total first.1.inventory row.1.inventory with below | above
    · obtain ⟨⟨best, member, same⟩, most⟩ := ih row
      rw [Int.max_eq_right below]
      refine ⟨⟨best, List.mem_cons_of_mem first member, same⟩, fun row' member => ?_⟩
      rcases List.mem_cons.1 member with rfl | member
      · exact Int.le_trans below (most row List.mem_cons_self)
      · exact most row' member
    · obtain ⟨⟨best, member, same⟩, most⟩ := ih first
      rw [Int.max_eq_left above]
      refine ⟨⟨best, ?_, same⟩, fun row' member => ?_⟩
      · rcases List.mem_cons.1 member with rfl | member
        · exact List.mem_cons_self
        · exact List.mem_cons_of_mem first (List.mem_cons_of_mem row member)
      · rcases List.mem_cons.1 member with rfl | member
        · exact most row' List.mem_cons_self
        · rcases List.mem_cons.1 member with rfl | member
          · exact Int.le_trans above (most first List.mem_cons_self)
          · exact most row' (List.mem_cons_of_mem first member)

structure Tabulates (table : List (PolicyEntry Level Order ρ)) (t : Nat) (least greatest : Int)
    (quantity : Int → Int) : Prop where
  row : ∀ entry ∈ table, ∃ x, least ≤ x ∧ x ≤ greatest ∧ entry.state = ⟨t, x⟩ ∧
    entry.action = some ⟨quantity x⟩
  listed : ∀ x, least ≤ x → x ≤ greatest → ∃ entry ∈ table, entry.state = ⟨t, x⟩ ∧
    entry.action = some ⟨quantity x⟩

/-- Orders are placed in `Ordered` and nowhere else, all of them lead to `S`, and with a level all
levels below it are in `Ordered`. -/
structure RaisesTo (least greatest S : Int) (Ordered : Int → Prop) (quantity : Int → Int) :
    Prop where
  placed : ∀ x, least ≤ x → x ≤ greatest → Ordered x → x < S ∧ quantity x = S - x
  idle : ∀ x, least ≤ x → x ≤ greatest → ¬Ordered x → quantity x = 0
  downward : ∀ x y, x ≤ y → Ordered y → Ordered x

section Extraction

variable {table : List (PolicyEntry Level Order ρ)} {t : Nat} {least greatest S : Int}
  {Ordered : Int → Prop} {quantity : Int → Int}

theorem mem_placed (tabulates : Tabulates table t least greatest quantity) {row : Level × Order} :
    row ∈ table.filterMap placed? ↔
      ∃ x, least ≤ x ∧ x ≤ greatest ∧ 0 < quantity x ∧ row = (⟨t, x⟩, ⟨quantity x⟩) := by
  rw [List.mem_filterMap]
  constructor
  · rintro ⟨entry, member, found⟩
    obtain ⟨x, above, below, state, action⟩ := tabulates.row entry member
    rw [placed?, action, state] at found
    dsimp only at found
    split at found
    · next positive =>
      cases found
      exact ⟨x, above, below, by simpa [Order.isPositive] using positive, rfl⟩
    · cases found
  · rintro ⟨x, above, below, positive, rfl⟩
    obtain ⟨entry, member, state, action⟩ := tabulates.listed x above below
    refine ⟨entry, member, ?_⟩
    rw [placed?, action, state]
    exact if_pos (by simpa [Order.isPositive] using positive)

theorem RaisesTo.pos_iff (raises : RaisesTo least greatest S Ordered quantity) {x : Int}
    (above : least ≤ x) (below : x ≤ greatest) : 0 < quantity x ↔ Ordered x := by
  constructor
  · intro positive
    refine Classical.byContradiction fun idle => ?_
    have none := raises.idle x above below idle
    omega
  · intro ordered
    obtain ⟨early, amount⟩ := raises.placed x above below ordered
    omega

/-- The policy read off a table reproduces its orders, and there is none exactly when nothing is
ordered. -/
theorem ofTable?_of_raisesTo (tabulates : Tabulates table t least greatest quantity)
    (raises : RaisesTo least greatest S Ordered quantity) :
    match ofTable? table with
    | some policy => policy.period = t ∧ policy.reorderPoint < policy.orderUpTo ∧
      ∀ x, least ≤ x → x ≤ greatest →
        quantity x = if x ≤ policy.reorderPoint then policy.orderUpTo - x else 0
    | none => ∀ x, least ≤ x → x ≤ greatest → quantity x = 0 := by
  rw [ofTable?]
  cases rows : table.filterMap placed? with
  | nil =>
    intro x above below
    refine raises.idle x above below fun ordered => ?_
    have positive := (raises.pos_iff above below).2 ordered
    have member := (mem_placed tabulates).2 ⟨x, above, below, positive, rfl⟩
    rw [rows] at member
    cases member
  | cons first rest =>
    have row : ∀ row ∈ first :: rest, ∃ x, least ≤ x ∧ x ≤ greatest ∧ Ordered x ∧
        row = (⟨t, x⟩, ⟨quantity x⟩) := by
      intro row member
      rw [← rows] at member
      obtain ⟨x, above, below, positive, same⟩ := (mem_placed tabulates).1 member
      exact ⟨x, above, below, (raises.pos_iff above below).1 positive, same⟩
    -- the first level of the policy may be any that orders: all of them lead to `S`
    obtain ⟨low, aboveLow, belowLow, orderedLow, lowest⟩ := row _ (lowest_mem first rest)
    obtain ⟨earlyLow, amountLow⟩ := raises.placed low aboveLow belowLow orderedLow
    obtain ⟨⟨last, member, highest⟩, most⟩ := highest_spec first rest
    obtain ⟨point, abovePoint, belowPoint, orderedPoint, rfl⟩ := row last member
    obtain ⟨earlyPoint, -⟩ := raises.placed point abovePoint belowPoint orderedPoint
    dsimp only
    rw [lowest, highest]
    refine ⟨rfl, by dsimp only; omega, fun x above below => ?_⟩
    dsimp only
    split
    · next early =>
      obtain ⟨-, amount⟩ := raises.placed x above below (raises.downward x point early orderedPoint)
      omega
    · next late =>
      refine raises.idle x above below fun ordered => late ?_
      have positive := (raises.pos_iff above below).2 ordered
      have placed := (mem_placed tabulates).2 ⟨x, above, below, positive, rfl⟩
      rw [rows] at placed
      have inside := most _ placed
      rwa [highest] at inside

end Extraction

end Horizon.ReorderPolicy
