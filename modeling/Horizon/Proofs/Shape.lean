import Horizon.Proofs.Sweep

/-! What does not depend on the values of a problem.

Problems of the same shape differ in the values that are collected and in nothing that the solvers
look at besides. So their states are generated alike (`generatedSpaces_eq`), and the same outcomes
count (`kept_eq`).
-/

set_option autoImplicit false

namespace Horizon.Problem

variable {σ α ρ : Type}

structure SameShape (P P' : Problem σ α ρ) : Prop where
  period_eq : P'.period = P.period
  actions_eq : P'.actions = P.actions
  outcomes_eq : P'.outcomes = P.outcomes
  probability_eq : P'.probability = P.probability
  domain_eq : P'.domain = P.domain
  fingerprint_eq : P'.fingerprint = P.fingerprint

namespace SameShape

variable {P P' : Problem σ α ρ} (same : P.SameShape P')

include same

theorem lawful (lawful : P.Lawful) : P'.Lawful where
  period_domain t s member := by
    rw [same.period_eq]
    exact lawful.period_domain t s (same.domain_eq ▸ member)
  period_outcomes s a f member := by
    rw [same.period_eq]
    exact lawful.period_outcomes s a f (same.outcomes_eq ▸ member)

theorem keepOutcomes_eq (sampling : Sampling) (seed : UInt64) (s : σ) (a : α)
    (candidates : List σ) :
    P'.keepOutcomes sampling seed s a candidates = P.keepOutcomes sampling seed s a candidates := by
  rw [keepOutcomes, keepOutcomes, same.period_eq, same.fingerprint_eq]

theorem outcomesKept_eq (sampling : Sampling) (seed : UInt64) :
    P'.outcomesKept sampling seed = P.outcomesKept sampling seed := by
  funext s a
  rw [outcomesKept, outcomesKept, same.keepOutcomes_eq, same.outcomes_eq]

section Generation

variable [DecidableEq σ]

open Backward

theorem kept_eq (config : Config ρ) (spaces : List (StateSpace σ)) :
    kept P' config spaces = kept P config spaces := by
  funext s a
  unfold kept
  simp only [same.period_eq, same.outcomes_eq, same.keepOutcomes_eq]

theorem materializeAll_eq (spaces : List (StateSpace σ)) :
    materializeAll P' spaces = materializeAll P spaces := by
  have materialized : ∀ space : StateSpace σ, space.materialize P' = space.materialize P := by
    intro space
    rw [StateSpace.materialize, StateSpace.materialize, StateSpace.sampledDomain,
      StateSpace.sampledDomain, same.domain_eq]
  induction spaces with
  | nil => rfl
  | cons space rest ih => rw [materializeAll, materializeAll, materialized, ih]

variable [Scalar ρ]

theorem uncovered_eq (current next : StateSpace σ) :
    uncovered P' current next = uncovered P current next := by
  unfold uncovered isCovered
  rw [same.actions_eq, same.outcomes_eq, same.probability_eq]

theorem coverAfter_eq (current : StateSpace σ) (spaces : List (StateSpace σ)) :
    coverAfter P' current spaces = coverAfter P current spaces := by
  induction spaces generalizing current with
  | nil => rfl
  | cons next rest ih =>
    rw [coverAfter, coverAfter, same.uncovered_eq]
    dsimp only
    rw [ih]

theorem coverAll_eq (spaces : List (StateSpace σ)) : coverAll P' spaces = coverAll P spaces := by
  cases spaces with
  | nil => rfl
  | cons first rest => rw [coverAll, coverAll, same.coverAfter_eq]

theorem generatedSpaces_eq [Hashable σ] (config : Config ρ) :
    generatedSpaces P' config = generatedSpaces P config := by
  rw [generatedSpaces, generatedSpaces, same.materializeAll_eq, same.coverAll_eq]

end Generation

end SameShape

end Horizon.Problem
