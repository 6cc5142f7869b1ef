import Horizon.Config
import Horizon.Json.Decode

/-! Configurations in JSON.

Every field of a configuration has a default for when it is missing; the records inside it have to
be complete. What is read is validated. Writing and reading use the same names, listed once.
-/

set_option autoImplicit false

namespace Horizon

open Json (Value)

def Direction.name : Direction → String
  | .minimize => "Minimize"
  | .maximize => "Maximize"

def Direction.ofJson? (v : Value) : Option Direction := do
  let (name, content) ← v.variant?
  if !Json.isUnit content then none
  else if name = "Minimize" then return .minimize
  else if name = "Maximize" then return .maximize
  else none

def Direction.toJson (d : Direction) : Value :=
  .text d.name

def Scheme.name : Scheme → String
  | .exhaustive => "None"
  | .random => "SimpleRandom"
  | .midpoints => "Jensen"

def Scheme.ofJson? (v : Value) : Option Scheme := do
  let (name, content) ← v.variant?
  if !Json.isUnit content then none
  else if name = "None" then return .exhaustive
  else if name = "SimpleRandom" then return .random
  else if name = "Jensen" then return .midpoints
  else none

def Scheme.toJson (s : Scheme) : Value :=
  .text s.name

def Sampling.fieldNames : List String :=
  ["scheme", "sample_size", "reduction_factor"]

def Sampling.ofJson? (v : Value) : Option Sampling := do
  let fields ← v.fields? fieldNames
  let scheme ← fields.required 0 "scheme" Scheme.ofJson?
  let size ← fields.required 1 "sample_size" Value.unsigned?
  let reduction ← fields.required 2 "reduction_factor" Value.float?
  return ⟨scheme, size, reduction⟩

def Json.member (name : String) (v : Value) : Json.Octets × Value :=
  (name.toList, v)

def Sampling.toJson (s : Sampling) : Value :=
  .object [Json.member "scheme" s.scheme.toJson, Json.member "sample_size" (.natural s.size),
    Json.member "reduction_factor" (.ofFloat s.reduction)]

def StorageKind.ofJson? (v : Value) : Option StorageKind := do
  let (name, content) ← v.variant?
  if name = "Sharded" then
    let fields ← (← content).fields? ["shards"]
    return .sharded (← fields.required 0 "shards" Value.unsigned?)
  else if !Json.isUnit content then none
  else if name = "HashMap" then return .hashMap
  else if name = "Concurrent" then return .concurrent
  else none

def StorageKind.toJson : StorageKind → Value
  | .hashMap => .text "HashMap"
  | .concurrent => .text "Concurrent"
  | .sharded shards =>
    .object [Json.member "Sharded" (.object [Json.member "shards" (.natural shards)])]

def StorageConfig.fieldNames : List String :=
  ["kind", "capacity_hint"]

def StorageConfig.ofJson? (v : Value) : Option StorageConfig := do
  let fields ← v.fields? fieldNames
  let kind ← fields.required 0 "kind" StorageKind.ofJson?
  let hint ← fields.required 1 "capacity_hint" Value.unsigned?
  return ⟨kind, hint⟩

def StorageConfig.toJson (s : StorageConfig) : Value :=
  .object [Json.member "kind" s.kind.toJson, Json.member "capacity_hint" (.natural s.capacityHint)]

namespace Config

def fieldNames : List String :=
  ["direction", "horizon_length", "discount_factor", "state_sampling", "outcome_sampling",
    "storage", "seed", "monitor_interval_ms"]

/-- A configuration as it stands, not validated. -/
def ofJson? (v : Value) : Option (Config Float) := do
  let fields ← v.fields? fieldNames
  let base : Config Float := default
  let direction ← fields.optional 0 "direction" base.direction Direction.ofJson?
  let horizon ← fields.optional 1 "horizon_length" base.horizon Value.unsigned?
  let discount ← fields.optional 2 "discount_factor" base.discount Value.float?
  let stateSampling ← fields.optional 3 "state_sampling" base.stateSampling Sampling.ofJson?
  let outcomeSampling ← fields.optional 4 "outcome_sampling" base.outcomeSampling Sampling.ofJson?
  let storage ← fields.optional 5 "storage" base.storage StorageConfig.ofJson?
  let seed ← fields.optional 6 "seed" base.seed.toNat Value.unsigned?
  let monitorInterval ← fields.optional 7 "monitor_interval_ms" base.monitorInterval
    (Value.optional? Value.unsigned?)
  return {
    direction, horizon, discount, stateSampling, outcomeSampling, storage, monitorInterval
    seed := UInt64.ofNat seed }

def toJson (config : Config Float) : Value :=
  .object [
    Json.member "direction" config.direction.toJson,
    Json.member "horizon_length" (.natural config.horizon),
    Json.member "discount_factor" (.ofFloat config.discount),
    Json.member "state_sampling" config.stateSampling.toJson,
    Json.member "outcome_sampling" config.outcomeSampling.toJson,
    Json.member "storage" config.storage.toJson,
    Json.member "seed" (.natural config.seed.toNat),
    Json.member "monitor_interval_ms"
      (match config.monitorInterval with
        | some interval => .natural interval
        | none => .null)]

inductive ReadError where
  | malformed
  | invalid (error : ConfigError Float)

def read (document : Json.Octets) : Except ReadError (Config Float) :=
  match (Json.read? document).bind ofJson? with
  | none => .error .malformed
  | some config =>
    match config.validate with
    | .ok _ => .ok config
    | .error e => .error (.invalid e)

def write (config : Config Float) : Json.Octets :=
  config.toJson.render

end Config

end Horizon
