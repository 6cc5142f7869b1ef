import Horizon.Distribution.Json
import Horizon.Distribution.Poisson
import Horizon.Inventory.LotSizing

/-! Instances with Poisson demand, and instances in JSON.

An instance that is read is taken as it stands, whatever its capacity and its bounds are.
-/

set_option autoImplicit false

namespace Horizon

open Json (Value)

def Costs.fieldNames : List String :=
  ["fixed_ordering_cost", "unit_cost", "holding_cost", "penalty_cost"]

def Costs.ofJson? (v : Value) : Option (Costs Float) := do
  let fields ← v.fields? fieldNames
  let fixed ← fields.required 0 "fixed_ordering_cost" Value.float?
  let unit ← fields.required 1 "unit_cost" Value.float?
  let holding ← fields.required 2 "holding_cost" Value.float?
  let penalty ← fields.required 3 "penalty_cost" Value.float?
  return ⟨fixed, unit, holding, penalty⟩

namespace LotSizing

def fieldNames : List String :=
  ["costs", "demand", "min_inventory", "max_inventory", "capacity"]

def ofJson? (v : Value) : Option (LotSizing Float) := do
  let fields ← v.fields? fieldNames
  let costs ← fields.required 0 "costs" Costs.ofJson?
  let demand ← fields.required 1 "demand" (Value.list? Tabulated.ofJson?)
  let least ← fields.required 2 "min_inventory" Value.signed?
  let greatest ← fields.required 3 "max_inventory" Value.signed?
  let capacity ← fields.nullable 4 "capacity" Value.signed?
  return ⟨costs, demand.toArray, least, greatest, capacity⟩

def read? (text : String) : Option (LotSizing Float) :=
  (Json.read? (Json.octets text)).bind ofJson?

/-- The quantile at which Poisson demand is cut off. -/
def truncationQuantile : Float := 0.9999

def poisson (means : List Float) (costs : Costs Float) (least greatest : Int) :
    Except (InstanceError Float) (LotSizing Float) := do
  let demand ← means.mapM fun mean =>
    match Tabulated.poisson mean truncationQuantile with
    | .ok d => .ok d
    | .error e => .error (InstanceError.demand e)
  new costs demand.toArray least greatest

end LotSizing

end Horizon
