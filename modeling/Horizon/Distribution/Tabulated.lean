import Horizon.Integers
import Horizon.Number.Text
import Horizon.Scalar

/-! Distributions on the integers with a table of masses.

The table covers a range of consecutive integers, which wrap around where they are too large for 64
bits. Tables built from masses are renormalized, so their masses are the given ones over their sum.
-/

set_option autoImplicit false

namespace Horizon

inductive DistributionError (ρ : Type) where
  | mass
  | noMass
  | quantile (q : ρ)
  | rate
  | mean
  | deviation
  /-- The quantile at which to truncate is not found among the cumulative masses. -/
  | search
  /-- There are more integers between the quantiles than a table can hold. -/
  | span

def DistributionError.message : DistributionError Float → String
  | .mass => "distribution error: masses must be finite and non-negative"
  | .noMass => "distribution error: masses sum to zero"
  | .quantile q =>
    "distribution error: truncation quantile " ++ Number.plain q ++ " must lie in (0, 1)"
  | .rate => "distribution error: Lambda is NaN, zero or less than zero"
  | .mean => "distribution error: Mean is NaN"
  | .deviation => "distribution error: Standard deviation is NaN, zero or less than zero"
  | .search => "distribution error: the truncation quantile is out of reach"
  | .span => "distribution error: the truncated range is too long for a table"

/-- Masses of the integers from `offset` on. -/
structure Tabulated (ρ : Type) where
  offset : Int
  masses : Array ρ
  deriving Inhabited

namespace Tabulated

variable {ρ : Type} [Scalar ρ]

def ofMasses (offset : Int) (masses : Array ρ) : Except (DistributionError ρ) (Tabulated ρ) :=
  if masses.all Scalar.isMass then
    let total := Scalar.total masses.toList
    if Scalar.le total 0 then .error .noMass
    else .ok ⟨offset, masses.map (· / total)⟩
  else .error .mass

def point (value : Int) : Tabulated ρ :=
  ⟨value, #[1]⟩

def least (d : Tabulated ρ) : Int :=
  d.offset

def greatest (d : Tabulated ρ) : Int :=
  wrap (d.offset + d.masses.size - 1)

def support (d : Tabulated ρ) : List (Int × ρ) :=
  d.masses.toList.mapIdx fun i m => (wrap (d.offset + i), m)

def mass? (d : Tabulated ρ) (x : Int) : Option ρ :=
  match x - d.offset with
  | .ofNat i => d.masses[i]?
  | .negSucc _ => none

def pmf (d : Tabulated ρ) (x : Int) : ρ :=
  (d.mass? x).getD 0

/-- The mass of the integers up to and including `x`, capped at one. How many they are is a number
of 64 bits. -/
def cdf (d : Tabulated ρ) (x : Int) : ρ :=
  match x - d.offset with
  | .ofNat i =>
    Scalar.minimum (Scalar.total (d.masses.toList.take ((i + 1) % UInt64.size))) 1
  | .negSucc _ => 0

/-- The first integer at which the masses, added to `below`, reach a quantile. -/
def firstReaching (quantile below : ρ) : List (Int × ρ) → Option Int
  | [] => none
  | (x, m) :: rest =>
    if Scalar.le quantile (below + m) then some x else firstReaching quantile (below + m) rest

def inverseCdf (d : Tabulated ρ) (quantile : ρ) : Int :=
  (firstReaching quantile 0 d.support).getD d.greatest

def mean (d : Tabulated ρ) : ρ :=
  Scalar.total (d.support.map fun (x, m) => Scalar.ofInt x * m)

end Tabulated

end Horizon
