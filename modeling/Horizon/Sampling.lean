import Horizon.Number.Exact
import Horizon.Number.Text
import Horizon.Random.KeyStream
import Horizon.Scalar

/-! Which elements of a range are kept.

A sampling keeps everything, or a number of elements that may shrink from period to period: either
uniform draws with repeats dropped, or the midpoints of bins of equal width. The kept indices are
ascending and depend on the length of the range, the period and a seed alone.
-/

set_option autoImplicit false

namespace Horizon

inductive Scheme where
  | exhaustive
  | random
  | midpoints
  deriving Repr, DecidableEq, Inhabited

/-- A scheme, the number of elements it keeps in period zero, and the factor by which that number
shrinks with each period. -/
structure Sampling where
  scheme : Scheme
  size : Nat
  reduction : Float

inductive SamplingError where
  | emptySample
  | reduction (factor : Float)

def SamplingError.message (label : String) : SamplingError → String
  | .emptySample => label ++ " sample size must be positive"
  | .reduction factor =>
    label ++ " reduction factor " ++ Number.plain factor ++ " must lie in (0, 1]"

namespace Sampling

def exhaustive : Sampling := ⟨.exhaustive, 1, 1.0⟩

def random (size : Nat) : Sampling := ⟨.random, size, 1.0⟩

def midpoints (size : Nat) : Sampling := ⟨.midpoints, size, 1.0⟩

def isExhaustive (s : Sampling) : Bool :=
  s.scheme == .exhaustive

def validate (s : Sampling) : Except SamplingError Unit :=
  if s.isExhaustive then .ok ()
  else if s.size = 0 then .error .emptySample
  else if Scalar.isFactor s.reduction then .ok ()
  else .error (.reduction s.reduction)

def multiplyPower : Nat → Float → Nat → Float → Float
  | 0, _, _, product => product
  | steps + 1, base, exponent, product =>
    let product := if exponent % 2 = 1 then product * base else product
    if exponent / 2 = 0 then product else multiplyPower steps (base * base) (exponent / 2) product

/-- An integer power with an exponent of 32 bits, by repeated squaring. -/
def power (base : Float) (exponent : Int) : Float :=
  let magnitude := multiplyPower 32 base exponent.natAbs 1.0
  if exponent < 0 then 1.0 / magnitude else magnitude

/-- The number of elements kept in a period: the size, reduced once for every period before, and
never less than one. The exponent is the period in 32-bit two's complement. -/
def sizeAt (s : Sampling) (period : Nat) : Nat :=
  max 1 (Number.ceilingUnsigned
    (Float.ofNat s.size * power s.reduction (Int.bmod period UInt32.size)))

def dropRepeats : List Nat → List Nat
  | m :: n :: rest => if m = n then dropRepeats (n :: rest) else m :: dropRepeats (n :: rest)
  | rest => rest

def randomIndices (length size : Nat) (seed : UInt64) : List Nat :=
  dropRepeats (((Random.KeyStream.ofSeed seed).draws length size).mergeSort (· ≤ ·))

/-- Midpoints of `size` bins of equal width over `length` indices. -/
def midpointIndices (length size : Nat) : List Nat :=
  (List.range size).map fun i => (2 * i + 1) * length / (2 * size)

def select (s : Sampling) (length period : Nat) (seed : UInt64) : List Nat :=
  if length = 0 then []
  else
    let size := s.sizeAt period
    if s.isExhaustive || length ≤ size then List.range length
    else
      match s.scheme with
      | .exhaustive => List.range length
      | .random => randomIndices length size seed
      | .midpoints => midpointIndices length size

def pick {σ : Type} (s : Sampling) (xs : List σ) (period : Nat) (seed : UInt64) : List σ :=
  if s.isExhaustive then xs
  else
    let elements := xs.toArray
    (s.select elements.size period seed).filterMap fun i => elements[i]?

end Sampling

end Horizon
