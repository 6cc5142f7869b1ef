import Horizon.Distribution.ErrorFunction
import Horizon.Distribution.Quantile
import Horizon.Integers
import Horizon.Number.Exact

/-! Normal distributions on the integers, cut off at a quantile on both sides.

An integer has the mass of the unit interval around it. The table runs from the integer below the
lower quantile to the integer above the upper one.
-/

set_option autoImplicit false

namespace Horizon.Tabulated

def normalCdf (mean deviation x : Float) : Float :=
  0.5 * ErrorFunction.erfc ((mean - x) / (deviation * ErrorFunction.sqrtTwo))

def normalQuantile (mean deviation p : Float) : Float :=
  mean - deviation * ErrorFunction.sqrtTwo * ErrorFunction.inverseErfc (2.0 * p)

def normalMass (mean deviation : Float) (k : Int) : Float :=
  let x := Float.ofInt k
  normalCdf mean deviation (x + 0.5) - normalCdf mean deviation (x - 0.5)

/-- A table spans fewer integers than this. -/
def spanLimit : Nat := 1 <<< 60

def normal (mean deviation quantile : Float) :
    Except (DistributionError Float) (Tabulated Float) := do
  checkQuantile quantile
  if mean.isNaN then throw .mean
  else if deviation.isNaN || deviation ≤ 0.0 then throw .deviation
  else
    let low := Number.floorSigned (normalQuantile mean deviation (1.0 - quantile))
    let high := Number.ceilingSigned (normalQuantile mean deviation quantile)
    if spanLimit ≤ high - low + 1 then throw .span
    ofMasses low ((ascending low high).map (normalMass mean deviation)).toArray

end Horizon.Tabulated
