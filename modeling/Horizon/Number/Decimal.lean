import Horizon.Number.Exact

/-! Decimal forms of binary64 numbers.

Every finite number has an exact decimal expansion, because two divides ten. `exactDecimal` gives
it, `Decimal.fixed` keeps a number of places of it, and `shortest` finds the decimal with the fewest
digits among those that read back as the number: for one digit, two digits, and so on, it tests the
two neighbours of the number on the decimal grid against the interval of reals that round to it.
-/

set_option autoImplicit false

namespace Horizon.Number

/-- The value `coefficient * 10 ^ exponent`. -/
structure Decimal where
  coefficient : Nat
  exponent : Int
  deriving Repr, DecidableEq

inductive Tie where
  | up
  | toEven
  deriving Repr, DecidableEq

def roundQuotient (numerator denominator : Nat) (tie : Tie) : Nat :=
  let quotient := numerator / denominator
  match compare (2 * (numerator % denominator)) denominator with
  | .lt => quotient
  | .gt => quotient + 1
  | .eq =>
    match tie with
    | .up => quotient + 1
    | .toEven => quotient + quotient % 2

def digitCount (n : Nat) : Nat :=
  n.repr.length

def Decimal.stripZeros : Nat → Decimal → Decimal
  | 0, d => d
  | fuel + 1, d =>
    if d.coefficient != 0 && d.coefficient % 10 == 0 then
      stripZeros fuel ⟨d.coefficient / 10, d.exponent + 1⟩
    else d

def Decimal.normalize (d : Decimal) : Decimal :=
  if d.coefficient = 0 then ⟨0, 0⟩ else d.stripZeros (digitCount d.coefficient)

/-- How many digits stand before the point: negative for values below a tenth. -/
def Decimal.pointPosition (d : Decimal) : Int :=
  digitCount d.coefficient + d.exponent

/-- Keep `places` digits after the point: the coefficient counts units of the last place. -/
def Decimal.fixed (d : Decimal) (places : Nat) (tie : Tie) : Nat :=
  match d.exponent + places with
  | .ofNat shift => d.coefficient * Nat.pow 10 shift
  | .negSucc shift => roundQuotient d.coefficient (Nat.pow 10 (shift + 1)) tie

/-- Rescale `significand * 2 ^ exponent` to a coefficient over a power of ten. -/
def decimalCoefficient (exponent : Int) (significand : Nat) : Nat :=
  match exponent with
  | .ofNat e => significand <<< e
  | .negSucc e => significand * Nat.pow 5 (e + 1)

def exactDecimal (x : Float) : Decimal :=
  let m := magnitude x
  ⟨decimalCoefficient m.exponent m.significand, min m.exponent 0⟩

structure Interval where
  low : Nat
  value : Nat
  high : Nat
  closed : Bool
  exponent : Int

def Interval.contains (i : Interval) (n : Nat) : Bool :=
  if i.closed then i.low ≤ n && n ≤ i.high else i.low < n && n < i.high

/-- The interval of a finite number's magnitude. Below a power of two the neighbour is half as
far as above it, unless that neighbour is subnormal. -/
def roundingInterval (x : Float) : Interval :=
  let m := magnitude x
  let exponent := m.exponent - 2
  let scale := decimalCoefficient exponent
  let below := if fraction x = 0 ∧ 1 < biasedExponent x then 1 else 2
  { low := scale (4 * m.significand - below)
    value := scale (4 * m.significand)
    high := scale (4 * m.significand + 2)
    closed := m.significand % 2 == 0
    exponent := min exponent 0 }

/-- The multiple of `step` inside the interval that is nearest to the value, counted in steps. -/
def Interval.nearest (i : Interval) (step : Nat) (tie : Tie) : Option Nat :=
  let below := i.value / step
  match i.contains (below * step), i.contains ((below + 1) * step) with
  | true, true => some (roundQuotient i.value step tie)
  | true, false => some below
  | false, true => some (below + 1)
  | false, false => none

def Interval.search (i : Interval) (tie : Tie) : Nat → Decimal
  | 0 => ⟨i.value, i.exponent⟩
  | finer + 1 =>
    match i.nearest (Nat.pow 10 (finer + 1)) tie with
    | some n => ⟨n, i.exponent + (finer + 1 : Nat)⟩
    | none => i.search tie finer

/-- The decimal with the fewest digits that reads back as the magnitude of `x`, and of those with
so many digits the nearest. -/
def shortest (x : Float) (tie : Tie) : Decimal :=
  let i := roundingInterval x
  (i.search tie (digitCount i.value)).normalize

end Horizon.Number
