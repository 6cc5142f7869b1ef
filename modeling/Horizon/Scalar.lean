/-! Numbers that values, masses and discounts are made of.

The solvers, the distributions and the inventory model use nothing of a number but the operations
of `Scalar`, so each of them runs on binary64 numbers and can be read on exact ones. Sums are taken
from the left, starting at zero, and the comparisons are Boolean: a scalar may have elements that
compare false both ways.
-/

set_option autoImplicit false

namespace Horizon

/-- The arithmetic and the tests that a solver needs of its values. -/
class Scalar (ρ : Type) extends Zero ρ, One ρ, Add ρ, Sub ρ, Mul ρ, Div ρ where
  lt : ρ → ρ → Bool
  le : ρ → ρ → Bool
  isFinite : ρ → Bool
  isNaN : ρ → Bool
  ofInt : Int → ρ

/-- Zero as a constant, so that it is read from its digits once. -/
@[noinline] def floatZero : Float := 0.0

@[noinline] def floatOne : Float := 1.0

/-- The number nearest to a natural number. Small numbers convert as words. -/
def floatOfNat (n : Nat) : Float :=
  if n < 1 <<< 31 then (UInt64.ofNat n).toFloat else Float.ofNat n

def floatOfInt : Int → Float
  | .ofNat n => floatOfNat n
  | .negSucc n => -floatOfNat (n + 1)

instance : Scalar Float where
  zero := floatZero
  one := floatOne
  add := Float.add
  sub := Float.sub
  mul := Float.mul
  div := Float.div
  lt := Float.lt
  le := Float.le
  isFinite := Float.isFinite
  isNaN := Float.isNaN
  ofInt := floatOfInt

namespace Scalar

variable {ρ : Type} [Scalar ρ]

@[specialize] def total (xs : List ρ) : ρ :=
  xs.foldl (· + ·) 0

def positivePart (n : Int) : ρ :=
  ofInt (max n 0)

/-- The smaller of two scalars, the second when they do not compare. -/
def minimum (x y : ρ) : ρ :=
  if lt x y then x else y

def isMass (x : ρ) : Bool :=
  isFinite x && le 0 x

def isFactor (x : ρ) : Bool :=
  lt 0 x && le x 1

end Scalar

end Horizon
