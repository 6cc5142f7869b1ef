import Horizon.Distribution.Tabulated

/-! Quantiles of distributions on the natural numbers, from their cumulative masses.

The range is doubled until the cumulative mass of its end reaches the level, then halved until its
ends are neighbours or one of them has the level exactly. Cumulative masses have to rise with the
integers as far as the search looks at them.
-/

set_option autoImplicit false

namespace Horizon

namespace Tabulated

def checkQuantile (quantile : Float) : Except (DistributionError Float) Unit :=
  if 0.0 < quantile ∧ quantile < 1.0 then .ok () else .error (.quantile quantile)

end Tabulated

namespace Quantile

def reach (cdf : Nat → Float) (level : Float) : Nat → Nat → Nat
  | 0, high => high
  | doublings + 1, high =>
    if cdf high < level then reach cdf level doublings (2 * high) else high

/-- Halve a range with the level between the cumulative masses of its ends. Nothing is found if the
masses fall on the way. -/
def between? (cdf : Nat → Float) (level : Float) (low high : Nat) : Option Nat :=
  let middle := (low + high) / 2
  if cdf low ≤ cdf middle ∧ cdf middle ≤ cdf high then
    if cdf low == level then some low
    else if cdf high == level ∨ high ≤ low + 1 then some high
    else if level ≤ cdf middle then between? cdf level low middle
    else between? cdf level middle high
  else none
termination_by high - low

/-- An integer whose cumulative mass reaches the level, while that of the integer before it does
not or equals it. Nothing is found if the level lies below all cumulative masses. -/
def find? (cdf : Nat → Float) (level : Float) : Option Nat :=
  let high := reach cdf level 63 2
  if cdf 0 ≤ level ∧ level ≤ cdf high then between? cdf level 0 high else none

end Quantile

end Horizon
