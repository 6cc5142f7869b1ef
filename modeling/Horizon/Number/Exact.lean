/-! The exact value of a finite binary64 number, and its conversion to integers.

A finite number is a sign and a magnitude `significand * 2 ^ exponent`. Conversions to integers
saturate: a value outside the range gives the nearest end of it, and a number that is not one
gives zero.
-/

set_option autoImplicit false

namespace Horizon.Number

/-- The magnitude `significand * 2 ^ exponent` of a finite number. -/
structure Magnitude where
  significand : Nat
  exponent : Int
  deriving Repr, DecidableEq

def isNegative (x : Float) : Bool :=
  x.toBits.toNat >>> 63 == 1

/-- The biased exponent, zero for zero and the subnormal numbers. -/
def biasedExponent (x : Float) : Nat :=
  x.toBits.toNat >>> 52 % 2048

/-- The leading bit of a normal number's significand, the only one that is not stored. -/
def leadingBit : Nat := 1 <<< 52

def fraction (x : Float) : Nat :=
  x.toBits.toNat % leadingBit

/-- The magnitude of a finite number; it means nothing for the others. -/
def magnitude (x : Float) : Magnitude :=
  match biasedExponent x with
  | 0 => ⟨fraction x, -1074⟩
  | biased => ⟨leadingBit + fraction x, (biased : Int) - 1075⟩

/-- The greatest integer at most the magnitude, and whether something is left over. -/
def Magnitude.split (m : Magnitude) : Nat × Bool :=
  match m.exponent with
  | .ofNat e => (m.significand <<< e, false)
  | .negSucc e =>
    let unit := 1 <<< (e + 1)
    (m.significand / unit, m.significand % unit != 0)

def floor (x : Float) : Int :=
  let (whole, rest) := (magnitude x).split
  if isNegative x then -((if rest then whole + 1 else whole : Nat) : Int) else whole

def ceiling (x : Float) : Int :=
  let (whole, rest) := (magnitude x).split
  if isNegative x then -(whole : Int) else (if rest then whole + 1 else whole : Nat)

def saturate (convert : Float → Int) (least greatest : Int) (x : Float) : Int :=
  if x.isNaN then 0
  else if x.isFinite then max least (min greatest (convert x))
  else if isNegative x then least else greatest

def floorSigned (x : Float) : Int :=
  saturate floor Int64.minValue.toInt Int64.maxValue.toInt x

def ceilingSigned (x : Float) : Int :=
  saturate ceiling Int64.minValue.toInt Int64.maxValue.toInt x

def ceilingUnsigned (x : Float) : Nat :=
  (saturate ceiling 0 (UInt64.size - 1) x).toNat

example : floor 2.5 = 2 ∧ ceiling 2.5 = 3 ∧ floor (-2.5) = -3 ∧ ceiling (-2.5) = -2 := by
  decide +kernel

example : ceilingUnsigned (1.0 / 0.0) = UInt64.size - 1 ∧ ceilingUnsigned (0.0 / 0.0) = 0 := by
  decide +kernel

end Horizon.Number
