import Horizon.Distribution.Gamma
import Horizon.Distribution.Quantile

/-! Poisson distributions, cut off at a quantile.

The table runs from zero to the quantile. The quantile has to lie strictly inside the unit interval
and not below the mass of zero; the mean has to be large enough for the mass of zero to differ from
one.
-/

set_option autoImplicit false

namespace Horizon.Tabulated

/-- The mass of an integer before the cut. -/
def poissonMass (mean : Float) (k : Nat) : Float :=
  Float.exp (-mean + Float.ofNat k * Float.log mean - Gamma.logFactorial k)

def poissonCdf (mean : Float) (k : Nat) : Float :=
  Gamma.upperShare (Float.ofNat k + 1.0) mean

def poisson (mean quantile : Float) : Except (DistributionError Float) (Tabulated Float) := do
  checkQuantile quantile
  if mean == 0.0 then return point 0
  else if mean.isNaN || mean ≤ 0.0 then throw .rate
  else if mean.isInf then throw .search
  else
    match Quantile.find? (poissonCdf mean) quantile with
    | some greatest => ofMasses 0 ((List.range (greatest + 1)).map (poissonMass mean)).toArray
    | none => throw .search

end Horizon.Tabulated
