import Horizon.Distribution.Tabulated
import Horizon.Integers
import Horizon.Problem
import Horizon.Random.SipHash

/-! Lot sizing of a single item under random demand.

In each period a quantity is ordered and arrives at once, then demand is met; what is missing is
owed and counts as negative inventory. Inventory is kept between two bounds. Orders are restricted
so that every demand leaves it there; where a capacity makes that impossible, the largest allowed
order is the only one, and an inventory beyond a bound is set to the bound. The state at a bound
then stands for all demands that lead there, and the cost of reaching it is the average of their
costs, each taken before it is set to the bound.

Not every question has an answer. An instance that is read may have a negative capacity, and then
no order, or empty bounds, and then no inventory to be set to. And a list can hold less than
`2 ^ 63` bytes: the orders of a level, which take eight bytes each, or the levels of a period, which
take sixteen, may be too many to be listed.
-/

set_option autoImplicit false

namespace Horizon

structure Level where
  period : Nat
  inventory : Int
  deriving Repr, DecidableEq

instance : Hashable Level where
  hash l := Random.blend (hash l.period) (hash l.inventory)

structure Order where
  quantity : Int
  deriving Repr, DecidableEq

instance : Hashable Order where
  hash o := hash o.quantity

instance : Label Level where
  label l :=
    "InventoryLevel \x7b period: " ++ toString l.period ++ ", inventory: "
      ++ toString l.inventory ++ " \x7d"

instance : Label Order where
  label o := "Order \x7b quantity: " ++ toString o.quantity ++ " \x7d"

def Order.isPositive (o : Order) : Bool :=
  0 < o.quantity

structure Costs (ρ : Type) where
  fixed : ρ
  unit : ρ
  holding : ρ
  penalty : ρ
  deriving Inhabited

def Costs.toList {ρ : Type} (c : Costs ρ) : List ρ :=
  [c.fixed, c.unit, c.holding, c.penalty]

instance : Label (Costs Float) where
  label c :=
    "CostParameters \x7b fixed_ordering_cost: " ++ Number.tagged c.fixed
      ++ ", unit_cost: " ++ Number.tagged c.unit
      ++ ", holding_cost: " ++ Number.tagged c.holding
      ++ ", penalty_cost: " ++ Number.tagged c.penalty ++ " \x7d"

/-- The cost of a period in which `quantity` was ordered and `rest` is left at the end. -/
@[specialize] def Costs.ofPeriod {ρ : Type} [Scalar ρ] (c : Costs ρ) (quantity rest : Int) : ρ :=
  let ordering := if 0 < quantity then c.fixed + c.unit * Scalar.ofInt quantity else 0
  ordering + c.holding * Scalar.positivePart rest + c.penalty * Scalar.positivePart (-rest)

/-- Demand per period, costs, bounds on the inventory, and a bound on orders. -/
structure LotSizing (ρ : Type) where
  costs : Costs ρ
  demand : Array (Tabulated ρ)
  least : Int
  greatest : Int
  capacity : Option Int

inductive InstanceError (ρ : Type) where
  | costs (costs : Costs ρ)
  | noDemand
  | emptyBounds (least greatest : Int)
  | capacity (capacity : Int)
  | demand (error : DistributionError ρ)

def InstanceError.message : InstanceError Float → String
  | .costs c =>
    "invalid configuration: cost parameters must be finite and non-negative: " ++ label c
  | .noDemand => "invalid configuration: at least one period of demand is required"
  | .emptyBounds least greatest =>
    "invalid configuration: inventory bounds [" ++ toString least ++ ", " ++ toString greatest
      ++ "] are empty"
  | .capacity limit =>
    "invalid configuration: order capacity " ++ toString limit ++ " must be non-negative"
  | .demand error => error.message

/-- The elements that differ from the one before them, when `last` comes before the first. -/
def dropRepeats {β : Type} [DecidableEq β] (last : Option β) : List β → List β
  | [] => []
  | x :: rest => if last = some x then dropRepeats last rest else x :: dropRepeats (some x) rest

namespace LotSizing

variable {ρ : Type} [Scalar ρ]

def new (costs : Costs ρ) (demand : Array (Tabulated ρ)) (least greatest : Int) :
    Except (InstanceError ρ) (LotSizing ρ) := do
  if !costs.toList.all Scalar.isMass then throw (.costs costs)
  if demand.isEmpty then throw .noDemand
  if greatest < least then throw (.emptyBounds least greatest)
  return ⟨costs, demand, least, greatest, none⟩

def withCapacity (m : LotSizing ρ) (capacity : Int) : Except (InstanceError ρ) (LotSizing ρ) :=
  if capacity < 0 then .error (.capacity capacity) else .ok { m with capacity := some capacity }

def clamp (m : LotSizing ρ) (inventory : Int) : Int :=
  max m.least (min m.greatest inventory)

def demandRange (m : LotSizing ρ) (t : Nat) : Int × Int :=
  match m.demand[t]? with
  | some d => (d.least, d.greatest)
  | none => (0, 0)

def limit (m : LotSizing ρ) (quantity : Int) : Int :=
  match m.capacity with
  | some capacity => min quantity capacity
  | none => quantity

/-- The smallest and the largest order: those that keep the inventory within its bounds whatever
the demand is, or the largest that the smallest demand does not carry beyond the upper bound. -/
def orderRange (m : LotSizing ρ) (l : Level) : Int × Int :=
  let (low, high) := m.demandRange l.period
  let smallest := max 0 (wrap (m.least + high - l.inventory))
  let largest := m.limit (wrap (m.greatest + low - l.inventory))
  if smallest ≤ largest then (smallest, largest)
  else
    let forced := m.limit (max 0 largest)
    (forced, forced)

def orders (m : LotSizing ρ) (l : Level) : List Order :=
  let (smallest, largest) := m.orderRange l
  (ascending smallest largest).map Order.mk

def idleOrder (m : LotSizing ρ) (l : Level) : Order :=
  ⟨(m.orderRange l).1⟩

/-- The states after a period. Demands ascend, so those that lead to one bound follow each other. -/
def ends (m : LotSizing ρ) (l : Level) (o : Order) : List Level :=
  match m.demand[l.period]? with
  | some d =>
    let position := l.inventory + o.quantity
    dropRepeats none (d.support.map fun (demand, _) =>
      Level.mk (l.period + 1) (m.clamp (wrap (position - demand))))
  | none => []

/-- Whether only one demand can lead to an inventory. -/
def isInside (m : LotSizing ρ) (inventory : Int) : Bool :=
  m.least < inventory && inventory < m.greatest

/-- What is left at the end, before it is set to a bound, for each demand that leads from
`position` to `inventory`, with its mass. -/
@[specialize] def landing (m : LotSizing ρ) (d : Tabulated ρ) (position inventory : Int) :
    List (Int × ρ) :=
  d.support.filterMap fun (demand, mass) =>
    let rest := wrap (position - demand)
    if m.clamp rest = inventory then some (rest, mass) else none

@[specialize] def probability (m : LotSizing ρ) (l : Level) (o : Order) (f : Level) : ρ :=
  match m.demand[l.period]? with
  | some d =>
    let position := l.inventory + o.quantity
    if m.isInside f.inventory then d.pmf (wrap (position - f.inventory))
    else Scalar.total ((m.landing d position f.inventory).map Prod.snd)
  | none => 0

@[specialize] def weigh (m : LotSizing ρ) (o : Order) (before : ρ × ρ) : List (Int × ρ) → ρ × ρ
  | [] => before
  | (rest, mass) :: others =>
    m.weigh o (before.1 + mass, before.2 + mass * m.costs.ofPeriod o.quantity rest) others

/-- The average cost over the demands that lead to a state, or the cost of its own inventory when
they have no mass. -/
@[specialize] def cost (m : LotSizing ρ) (l : Level) (o : Order) (f : Level) : ρ :=
  let landing :=
    match m.demand[l.period]? with
    | some d => m.landing d (l.inventory + o.quantity) f.inventory
    | none => []
  let (mass, weighted) := m.weigh o (0, 0) landing
  if Scalar.lt 0 mass then weighted / mass else m.costs.ofPeriod o.quantity f.inventory

def levels (m : LotSizing ρ) (t : Nat) : List Level :=
  (descending m.greatest m.least).map (Level.mk t)

def fingerprint (l : Level) (o : Order) : UInt64 :=
  Random.SipHash.hash
    [UInt64.ofNat l.period, UInt64.ofInt l.inventory, UInt64.ofInt o.quantity]

/-- Whether the largest allowed order is one. -/
def hasOrders {ρ : Type} (m : LotSizing ρ) : Bool :=
  match m.capacity with
  | some capacity => 0 ≤ capacity
  | none => true

/-- Whether every demand of a period leads to an inventory within the bounds. -/
def hasEnds {ρ : Type} (m : LotSizing ρ) (t : Nat) : Bool :=
  m.least ≤ m.greatest ||
    match m.demand[t]? with
    | some d => d.masses.isEmpty
    | none => true

def listsOrders {ρ : Type} (m : LotSizing ρ) (l : Level) : Bool :=
  let (smallest, largest) := m.orderRange l
  m.hasOrders && 8 * (largest + 1 - smallest) ≤ Int64.maxValue.toInt

def listsLevels {ρ : Type} (m : LotSizing ρ) : Bool :=
  16 * (m.greatest + 1 - m.least) ≤ Int64.maxValue.toInt

@[specialize] def problem (m : LotSizing ρ) : Problem Level Order ρ where
  maxHorizon := some m.demand.size
  period := Level.period
  actions := m.orders
  idle := m.idleOrder
  outcomes := m.ends
  probability := m.probability
  immediate := m.cost
  terminal := fun _ => 0
  domain := m.levels
  fingerprint := fingerprint

end LotSizing

end Horizon
