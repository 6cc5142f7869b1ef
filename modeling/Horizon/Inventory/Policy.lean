import Horizon.Backward
import Horizon.Inventory.LotSizing

/-! Reorder policies read off a solved period.

The reorder point is the greatest inventory at which something is ordered, and the order-up-to
level is where the order placed at the least such inventory leads.
-/

set_option autoImplicit false

namespace Horizon

structure ReorderPolicy where
  period : Nat
  reorderPoint : Int
  orderUpTo : Int
  deriving Repr, DecidableEq

namespace ReorderPolicy

variable {ρ : Type}

/-- The level and the order of a row in which something is ordered. -/
def placed? (row : PolicyEntry Level Order ρ) : Option (Level × Order) :=
  match row.action with
  | some o => if o.isPositive then some (row.state, o) else none
  | none => none

def lowest (best : Level × Order) : List (Level × Order) → Level × Order
  | [] => best
  | row :: rest => lowest (if row.1.inventory < best.1.inventory then row else best) rest

def highest (best : Int) : List (Level × Order) → Int
  | [] => best
  | row :: rest => highest (max best row.1.inventory) rest

/-- The policy of a table, if something is ordered in it. -/
def ofTable? (table : List (PolicyEntry Level Order ρ)) : Option ReorderPolicy :=
  match table.filterMap placed? with
  | [] => none
  | first :: rest =>
    let (level, order) := lowest first rest
    some ⟨level.period, highest first.1.inventory rest, level.inventory + order.quantity⟩

end ReorderPolicy

end Horizon
