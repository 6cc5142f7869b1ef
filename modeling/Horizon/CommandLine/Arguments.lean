import Horizon.Inventory.LotSizing
import Horizon.Number.Reading

/-! The arguments of the command line.

Arguments are options with a value each, `--name value` or `--name=value`, in any order. A value
that stands alone may begin with a hyphen only where negative numbers are usual. Every option but
the demand occurs once, and a list that breaks a rule is refused as a whole.
-/

set_option autoImplicit false

namespace Horizon.CommandLine

inductive Method where
  | backward
  | forward
  deriving Repr, DecidableEq

structure Arguments where
  demand : List Float
  costs : Costs Float
  capacity : Option Int
  least : Int
  greatest : Int
  initial : Int
  method : Method
  config : Option String
  /-- Milliseconds between progress reports. -/
  monitor : Option Nat
  output : String

def optionNames : List String :=
  ["demand", "fixed-cost", "unit-cost", "holding-cost", "penalty-cost", "capacity",
    "min-inventory", "max-inventory", "initial-inventory", "method", "config", "monitor-ms",
    "output"]

/-- Whether a text that stands alone can be the value of an option. -/
def mayFollow (name value : String) : Bool :=
  name = "min-inventory" || name = "initial-inventory" || value = "-"
    || value.toList.head? != some '-'

def splitOption (body : List Char) : String × Option String :=
  match body.span (· != '=') with
  | (name, '=' :: value) => (String.ofList name, some (String.ofList value))
  | (name, _) => (String.ofList name, none)

def optionBody? (argument : String) : Option (List Char) :=
  match argument.toList with
  | '-' :: '-' :: body => some body
  | _ => none

def collect : List String → Option (List (String × String))
  | [] => some []
  | argument :: rest => do
    let body ← optionBody? argument
    if body.isEmpty then if rest.isEmpty then return [] else none
    else
      match splitOption body with
      | (name, some value) =>
        if optionNames.contains name then return (name, value) :: (← collect rest) else none
      | (name, none) =>
        if optionNames.contains name then
          match rest with
          | value :: rest =>
            if mayFollow name value then return (name, value) :: (← collect rest) else none
          | [] => none
        else none

def valuesOf (options : List (String × String)) (name : String) : List String :=
  options.filterMap fun (n, value) => if n = name then some value else none

def single {β : Type} (options : List (String × String)) (name : String) (default : β)
    (read : String → Option β) : Option β :=
  match valuesOf options name with
  | [] => some default
  | [value] => read value
  | _ => none

def readInteger? (least greatest : Int) (text : String) : Option Int :=
  let (negative, rest) := Number.takeSign text.toList
  match Number.takeDigits rest with
  | ([], _) => none
  | (digits, []) =>
    let magnitude : Int := Number.ofDigits digits
    let n := if negative then -magnitude else magnitude
    if least ≤ n ∧ n ≤ greatest then some n else none
  | _ => none

def readSigned? (text : String) : Option Int :=
  readInteger? Int64.minValue.toInt Int64.maxValue.toInt text

def readUnsigned? (text : String) : Option Nat :=
  if text.toList.head? = some '-' then none
  else (readInteger? 0 (UInt64.size - 1) text).map Int.toNat

def readMethod? (text : String) : Option Method :=
  if text = "backward" then some .backward
  else if text = "forward" then some .forward
  else none

def readPath? (text : String) : Option String :=
  if text.isEmpty then none else some text

def readDemand? (text : String) : Option (List Float) :=
  (text.splitOn ",").mapM Number.read?

def Arguments.ofOptions? (options : List (String × String)) : Option Arguments := do
  let means ← (valuesOf options "demand").mapM readDemand?
  return {
    demand := if means.isEmpty then [20.0, 40.0, 60.0, 40.0] else means.flatten
    costs :=
      { fixed := ← single options "fixed-cost" 100.0 Number.read?
        unit := ← single options "unit-cost" 0.0 Number.read?
        holding := ← single options "holding-cost" 1.0 Number.read?
        penalty := ← single options "penalty-cost" 10.0 Number.read? }
    capacity := ← single options "capacity" none fun v => (readSigned? v).map some
    least := ← single options "min-inventory" (-100) readSigned?
    greatest := ← single options "max-inventory" 250 readSigned?
    initial := ← single options "initial-inventory" 0 readSigned?
    method := ← single options "method" .backward readMethod?
    config := ← single options "config" none fun v => (readPath? v).map some
    monitor := ← single options "monitor-ms" none fun v => (readUnsigned? v).map some
    output := ← single options "output" "policy.csv" readPath? }

def Arguments.ofList? (arguments : List String) : Option Arguments :=
  (collect arguments).bind ofOptions?

end Horizon.CommandLine
