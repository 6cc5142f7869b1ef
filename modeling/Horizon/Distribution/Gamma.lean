/-! The logarithm of the gamma function, and the two shares of its integral beside a point.

For an order `a` from one on, the integral of `t ^ (a - 1) * exp (-t)` over all positive `t` is the
gamma function. `lowerShare a x` is the part of it below `x` over the whole, `upperShare a x` the
part above. Up to the order, the lower share is a series with positive terms, and the upper share
is what it leaves to one; beyond the order, the upper share is a continued fraction.
-/

set_option autoImplicit false

namespace Horizon.Gamma

/-- The numerators of the poles at `0`, `-1`, `-2`, … in the approximation of the gamma function. -/
def poles : List Float :=
  [1.05142378581721974210, -3.45687097222016235469, 4.51227709466894823700,
    -2.98285225323576655721, 1.05639711577126713077, -1.95428773191645869583e-1,
    1.70970543404441224307e-2, -5.71926117404305781283e-4, 4.63399473359905636708e-6,
    -2.71994908488607703910e-9]

def poleSum (x : Float) : Float :=
  (poles.foldl (fun (sum, x) pole => (sum + pole / x, x + 1.0))
    (2.48574089138753565546e-5, x)).1

def eulerNumber : Float := 2.71828182845904523536

/-- The logarithm of `2 * sqrt (e / pi)`. -/
def logScale : Float := 0.62078223763524522234552

def log (x : Float) : Float :=
  Float.log (poleSum x) + logScale
    + (x - 0.5) * Float.log ((x - 0.5 + 10.900511) / eulerNumber)

def factorial : Nat → Float
  | 0 => 1.0
  | n + 1 => factorial n * Float.ofNat (n + 1)

def logFactorial (n : Nat) : Float :=
  if n ≤ 170 then Float.log (factorial n) else log (Float.ofNat n + 1.0)

/-- Series and fractions end where a step changes them by no more than this, relatively. -/
def tolerance : Float := 1e-15

def steps (x : Float) : Nat :=
  200 + 20 * (Float.sqrt x).toUInt64.toNat

/-- The logarithm of `x ^ a * exp (-x)` over the gamma function. -/
def logWeight (a x : Float) : Float :=
  a * Float.log x - x - log a

def leastLogWeight : Float := -709.78271289338399

/-- Add the terms after `term` to `1 + x / (a + 1) + x ^ 2 / ((a + 1) * (a + 2)) + …`. -/
def seriesFrom (x : Float) : Nat → Float → Float → Float → Float
  | 0, _, _, sum => sum
  | fuel + 1, a, term, sum =>
    let a := a + 1.0
    let term := term * (x / a)
    let sum := sum + term
    if term / sum ≤ tolerance then sum else seriesFrom x fuel a term sum

structure Convergents where
  earlierNumerator : Float
  earlierDenominator : Float
  numerator : Float
  denominator : Float

namespace Convergents

def next (c : Convergents) (a b : Float) : Convergents :=
  ⟨c.numerator, c.denominator, c.numerator * b - c.earlierNumerator * a,
    c.denominator * b - c.earlierDenominator * a⟩

/-- The same quotients with smaller terms, once the terms grow large. -/
def scaled (c : Convergents) : Convergents :=
  let scale := 2.22044604925031308085e-16
  if 4503599627370496.0 < c.numerator.abs then
    ⟨c.earlierNumerator * scale, c.earlierDenominator * scale, c.numerator * scale,
      c.denominator * scale⟩
  else c

end Convergents

/-- Follow the convergents until one agrees with the last. The `n`-th step has the partial
denominator `b + 2 * n` and the partial numerator `n * (a - n)`. -/
def fractionFrom : Nat → Convergents → Float → Float → Float → Float → Float
  | 0, _, _, _, _, value => value
  | fuel + 1, c, y, b, n, value =>
    let y := y + 1.0
    let b := b + 2.0
    let n := n + 1.0
    let grown := c.next (y * n) b
    let shrunk := grown.scaled
    if grown.denominator == 0.0 then fractionFrom fuel shrunk y b n value
    else
      let ratio := grown.numerator / grown.denominator
      if ((value - ratio) / ratio).abs ≤ tolerance then ratio
      else fractionFrom fuel shrunk y b n ratio

/-- The upper share over the weight, for points beyond the order. -/
def fraction (a x : Float) : Float :=
  let y := 1.0 - a
  let b := x + y + 1.0
  let first := ⟨1.0, x, x + 1.0, b * x⟩
  fractionFrom (steps x) first y b 0.0 (first.numerator / first.denominator)

def leastPoint : Float := 1.1102230246251565e-15

def lowerShare (a x : Float) : Float :=
  let weight := logWeight a x
  if x ≤ leastPoint ∨ weight < leastLogWeight then 0.0
  else Float.exp weight * seriesFrom x (steps a) a 1.0 1.0 / a

def upperShare (a x : Float) : Float :=
  let weight := logWeight a x
  if x < 1.0 ∨ x ≤ a then 1.0 - lowerShare a x
  else if weight < leastLogWeight then 0.0
  else fraction a x * Float.exp weight

end Horizon.Gamma
