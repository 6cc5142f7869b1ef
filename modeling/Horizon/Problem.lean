import Horizon.Sampling
import Horizon.Random.Mix
import Horizon.Scalar

/-! Finite-horizon stochastic decision problems.

In each period a state offers actions; an action leads to one of several outcomes, states of the
next period, and collects a value on the way. All of it is given by functions, so asking twice
gives the same answer. `outcomesKept` applies a sampling of outcomes and `weights` turns their
probabilities into weights of sum one.
-/

set_option autoImplicit false

namespace Horizon

/-- How messages name a state or an action. -/
class Label (τ : Type) where
  label : τ → String

export Label (label)

/-- A decision problem with states `σ`, actions `α` and values `ρ`. -/
structure Problem (σ α ρ : Type) where
  maxHorizon : Option Nat
  period : σ → Nat
  /-- The feasible actions, in the order in which ties are settled. -/
  actions : σ → List α
  /-- The action of doing as little as possible. -/
  idle : σ → α
  outcomes : σ → α → List σ
  /-- The mass of an outcome. Masses need not sum to one. -/
  probability : σ → α → σ → ρ
  immediate : σ → α → σ → ρ
  terminal : σ → ρ
  domain : Nat → List σ
  /-- A hash of a state and an action, from which the draws for their outcomes are seeded. -/
  fingerprint : σ → α → UInt64

/-- What every solver relies on: domains and outcomes lie in their periods. -/
structure Problem.Lawful {σ α ρ : Type} (P : Problem σ α ρ) : Prop where
  period_domain : ∀ t, ∀ s ∈ P.domain t, P.period s = t
  period_outcomes : ∀ s a, ∀ f ∈ P.outcomes s a, P.period f = P.period s + 1

inductive SolveError (σ α : Type) where
  | unsolved (state : σ)
  | alreadySolved (state : σ)
  /-- A state has a value and no action, as at the end of the horizon. -/
  | noDecision (state : σ)
  /-- The kept outcomes carry no mass, or a mass that cannot be used. -/
  | degenerate (state : σ) (action : α)
  | notNumber (action : α)
  | noFeasibleAction (state : σ)
  | targetBeyond (target horizon : Nat)
  | startBeyond (period horizon : Nat)
  | tableBeyond (period horizon : Nat)
  deriving Repr, DecidableEq

def SolveError.message {σ α : Type} [Label σ] [Label α] : SolveError σ α → String
  | .unsolved s => "state " ++ label s ++ " has not been solved"
  | .alreadySolved s => "state " ++ label s ++ " already holds an optimal decision"
  | .noDecision s => "state " ++ label s ++ " has no optimal action"
  | .degenerate s a =>
    "transition from " ++ label s ++ " under " ++ label a ++ " retains zero probability mass"
  | .notNumber a => "action " ++ label a ++ " evaluated to NaN"
  | .noFeasibleAction s => "state " ++ label s ++ " has no feasible action"
  | .targetBeyond target horizon =>
    "invalid configuration: target period " ++ toString target ++ " must be below the horizon "
      ++ toString horizon
  | .startBeyond period horizon =>
    "invalid configuration: initial period " ++ toString period ++ " beyond horizon "
      ++ toString horizon
  | .tableBeyond period horizon =>
    "invalid configuration: period " ++ toString period ++ " outside horizon " ++ toString horizon

namespace Problem

variable {σ α ρ : Type}

/-- The candidates that a sampling keeps among outcomes of a state and an action. -/
@[specialize] def keepOutcomes (P : Problem σ α ρ) (sampling : Sampling) (seed : UInt64)
    (s : σ) (a : α) (candidates : List σ) : List σ :=
  if sampling.isExhaustive then candidates
  else sampling.pick candidates (P.period s) (Random.mixSeed seed (P.fingerprint s a))

def outcomesKept (P : Problem σ α ρ) (sampling : Sampling) (seed : UInt64) (s : σ) (a : α) :
    List σ :=
  P.keepOutcomes sampling seed s a (P.outcomes s a)

variable [Scalar ρ]

/-- The mass of an outcome, if it can be used. -/
@[specialize] def mass (P : Problem σ α ρ) (s : σ) (a : α) (f : σ) : Except (SolveError σ α) ρ :=
  let p := P.probability s a f
  if Scalar.isMass p then .ok p else .error (.degenerate s a)

@[specialize] def weights (P : Problem σ α ρ) (s : σ) (a : α) (finals : List σ) :
    Except (SolveError σ α) (List ρ) := do
  let masses ← finals.mapM (P.mass s a)
  let total := Scalar.total masses
  if Scalar.le total 0 then throw (.degenerate s a) else return masses.map (· / total)

end Problem

end Horizon
