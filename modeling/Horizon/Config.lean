import Horizon.Direction
import Horizon.Sampling
import Horizon.Store

/-! What a solver needs besides the problem, and the checks it has to pass.

The checks are made in the order of `validate`, and the first that fails is reported. The horizon
is also held against the number of periods that the problem has data for.
-/

set_option autoImplicit false

namespace Horizon

structure Config (ρ : Type) where
  direction : Direction
  horizon : Nat
  discount : ρ
  stateSampling : Sampling
  outcomeSampling : Sampling
  storage : StorageConfig
  seed : UInt64
  /-- Milliseconds between progress reports. -/
  monitorInterval : Option Nat

inductive ConfigError (ρ : Type) where
  | emptyHorizon
  | discount (factor : ρ)
  | monitor
  | sampling (label : String) (error : SamplingError)
  | noShards
  /-- The horizon exceeds the periods that the problem defines. -/
  | horizon (length limit : Nat)

def ConfigError.reason : ConfigError Float → String
  | .emptyHorizon => "horizon length must be at least one period"
  | .discount factor => "discount factor " ++ Number.plain factor ++ " must lie in (0, 1]"
  | .monitor => "monitor interval must be positive"
  | .sampling label error => error.message label
  | .noShards => "sharded store needs at least one shard"
  | .horizon length limit =>
    "horizon length " ++ toString length ++ " exceeds the " ++ toString limit
      ++ " periods the model defines"

def invalidConfiguration (reason : String) : String :=
  "invalid configuration: " ++ reason

def ConfigError.message (e : ConfigError Float) : String :=
  invalidConfiguration e.reason

def StorageConfig.validate {ρ : Type} (s : StorageConfig) : Except (ConfigError ρ) Unit :=
  if s.kind.isValid then .ok () else .error .noShards

namespace Config

variable {ρ : Type} [Scalar ρ]

def default : Config ρ :=
  { direction := .minimize
    horizon := 1
    discount := 1
    stateSampling := .exhaustive
    outcomeSampling := .exhaustive
    storage := .default
    seed := 12345
    monitorInterval := none }

def exact (horizon : Nat) : Config ρ :=
  { default with horizon := horizon }

def sampled (horizon size : Nat) : Config ρ :=
  { default with horizon := horizon, outcomeSampling := .midpoints size }

/-- Report progress at an interval given in seconds and nanoseconds, in whole milliseconds of at
most 64 bits. -/
def withMonitor (config : Config ρ) (seconds nanoseconds : Nat) : Config ρ :=
  { config with
    monitorInterval := some (min (UInt64.size - 1) (seconds * 1000 + nanoseconds / 1000000)) }

def validateSampling (label : String) (s : Sampling) : Except (ConfigError ρ) Unit :=
  match s.validate with
  | .ok _ => .ok ()
  | .error e => .error (.sampling label e)

def validate (config : Config ρ) : Except (ConfigError ρ) Unit := do
  if config.horizon = 0 then throw .emptyHorizon
  if !Scalar.isFactor config.discount then throw (.discount config.discount)
  if config.monitorInterval = some 0 then throw .monitor
  validateSampling "state" config.stateSampling
  validateSampling "outcome" config.outcomeSampling
  config.storage.validate

def checkHorizon (config : Config ρ) (limit : Option Nat) : Except (ConfigError ρ) Unit :=
  match limit with
  | some limit =>
    if limit < config.horizon then .error (.horizon config.horizon limit) else .ok ()
  | none => .ok ()

end Config

end Horizon
