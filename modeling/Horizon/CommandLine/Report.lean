import Horizon.CommandLine.Arguments
import Horizon.Config.Json
import Horizon.Forward
import Horizon.Inventory.Json
import Horizon.Inventory.Policy

/-! What the command line prints and writes.

A run prints lines and ends in a failure or in a conclusion: the table to be written, if there is
one, and the lines to print once it is. Reading and writing files is left to the caller.
-/

set_option autoImplicit false

namespace Horizon.CommandLine

structure Failure where
  circumstances : Option String
  reason : String

def Failure.report (f : Failure) : List String :=
  match f.circumstances with
  | some c => ["Error: " ++ c, "", "Caused by:", "    " ++ f.reason]
  | none => ["Error: " ++ f.reason]

structure Table where
  path : String
  text : String

structure Conclusion where
  table : Option Table
  closing : List String

structure Run where
  lines : List String
  result : Except Failure Conclusion

def Run.failed (lines : List String) (reason : String) : Run :=
  ⟨lines, .error ⟨none, reason⟩⟩

def Run.after (lines : List String) (r : Run) : Run :=
  { r with lines := lines ++ r.lines }

def padLeft (width : Nat) (text : String) : String :=
  String.ofList (List.replicate (width - text.length) ' ') ++ text

def policyRow (period point level : String) : String :=
  padLeft 6 period ++ " " ++ padLeft 8 point ++ " " ++ padLeft 8 level

def policyHeader : List String :=
  [policyRow "Period" "s" "S", String.ofList (List.replicate 24 '-')]

def policyLine (t : Nat) (table : List (PolicyEntry Level Order Float)) : String :=
  match ReorderPolicy.ofTable? table with
  | some p => policyRow (toString t) (toString p.reorderPoint) (toString p.orderUpTo)
  | none => policyRow (toString t) "-" "-"

def tableText (rows : List (PolicyEntry Level Order Float)) : String :=
  let line := fun (row : PolicyEntry Level Order Float) =>
    toString row.state.period ++ "," ++ toString row.state.inventory ++ ","
      ++ Number.compact row.value ++ ","
      ++ (match row.action with
        | some o => toString o.quantity
        | none => "")
      ++ "\n"
  rows.foldl (fun text row => text ++ line row) "period,inventory,expected_cost,order\n"

def header (horizon : Nat) (means : List Float) : List String :=
  ["SDP Toolkit v0.1.0",
    "Periods: " ++ toString horizon ++ ", demand means: ["
      ++ ", ".intercalate (means.map Number.tagged) ++ "]",
    ""]

def answerLines (initial : Int) (value : Float) (order : Order) : List String :=
  ["Expected cost from " ++ toString initial ++ ": " ++ Number.fixed 4 value,
    "Optimal order: " ++ toString order.quantity]

def runBackward (problem : Problem Level Order Float) (config : Config Float) (initial : Int)
    (output : String) : Run :=
  match Backward.new problem config with
  | .error e => .failed [] e.message
  | .ok solver =>
    match solver.run with
    | (.error e, _) => .failed [] e.message
    | (.ok _, solver) =>
      let start : Level := ⟨0, initial⟩
      match solver.ledger.value start, solver.ledger.action start with
      | .error e, _ => .failed [] e.message
      | .ok _, .error e => .failed [] e.message
      | .ok value, .ok order =>
        let lines := answerLines initial value order ++ [""] ++ policyHeader
        match (List.range config.horizon).mapM solver.valueFunction with
        | .error e => .failed lines e.message
        | .ok tables =>
          let statistics := solver.statistics
          { lines := lines ++ tables.mapIdx policyLine
            result := .ok {
              table := some ⟨output, tableText (tables.headD [])⟩
              closing := ["", "Policy written to " ++ output,
                "States: " ++ toString statistics.generated ++ " generated, "
                  ++ toString statistics.solved ++ " solved, "
                  ++ toString statistics.evaluations ++ " expected values"] } }

def runForward (problem : Problem Level Order Float) (config : Config Float) (initial : Int) :
    Run :=
  match Forward.new problem config with
  | .error e => .failed [] e.message
  | .ok solver =>
    let start : Level := ⟨0, initial⟩
    match solver.run start with
    | (.error e, _) => .failed [] e.message
    | (.ok value, solver) =>
      match solver.ledger.action start with
      | .error e => .failed [] e.message
      | .ok order =>
        let statistics := solver.statistics
        { lines := answerLines initial value order ++
            ["States: " ++ toString statistics.generated ++ " generated, "
              ++ toString statistics.reused ++ " reused, "
              ++ toString statistics.evaluations ++ " expected values"]
          result := .ok ⟨none, []⟩ }

def instanceOf (a : Arguments) : Except Failure (LotSizing Float) :=
  match LotSizing.poisson a.demand a.costs a.least a.greatest with
  | .error e => .error ⟨some "invalid lot-sizing instance", e.message⟩
  | .ok m =>
    match a.capacity with
    | none => .ok m
    | some capacity =>
      match m.withCapacity capacity with
      | .ok m => .ok m
      | .error e => .error ⟨none, e.message⟩

def configOf (path : Option String) (contents : Except String Json.Octets) :
    Except Failure (Config Float) :=
  match path with
  | none => .ok .default
  | some path =>
    let failure := fun reason => Failure.mk (some ("failed to load " ++ path)) reason
    match contents with
    | .error reason => .error (failure reason)
    | .ok document =>
      match Config.read document with
      | .ok config => .ok config
      | .error .malformed => .error (failure "json: not a solver configuration")
      | .error (.invalid e) => .error (failure e.message)

/-- A run on the contents of the configuration file. The demand sets the horizon, and the interval
of the arguments goes before that of the file. -/
def run (a : Arguments) (contents : Except String Json.Octets) : Run :=
  match instanceOf a with
  | .error f => ⟨[], .error f⟩
  | .ok m =>
    match configOf a.config contents with
    | .error f => ⟨[], .error f⟩
    | .ok config =>
      let config := { config with horizon := m.demand.size }
      let config :=
        match a.monitor with
        | some interval => { config with monitorInterval := some interval }
        | none => config
      let solved :=
        match a.method with
        | .backward => runBackward m.problem config a.initial a.output
        | .forward => runForward m.problem config a.initial
      solved.after (header config.horizon a.demand)

def uncreated (path reason : String) : Failure :=
  ⟨some ("failed to create " ++ path), reason⟩

end Horizon.CommandLine
