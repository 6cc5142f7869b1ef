import Horizon.Number.Exact

/-! Reading numbers.

A numeral is the text of a decimal number taken apart into sign, digits and exponent. `nearest` is
the binary64 number closest to it. `Numeral.bounded` is the reading of data files, which work with
a significand of 64 bits: digits that would exceed it are dropped, and the power of ten is applied
by one multiplication or division.
-/

set_option autoImplicit false

namespace Horizon.Number

structure Numeral where
  negative : Bool
  whole : List Nat
  fraction : List Nat
  exponent : Option Int
  deriving Repr, DecidableEq

def digit? (c : Char) : Option Nat :=
  if '0' ≤ c ∧ c ≤ '9' then some (c.toNat - 48) else none

def takeDigits : List Char → List Nat × List Char
  | [] => ([], [])
  | c :: rest =>
    match digit? c with
    | some d =>
      let (ds, rest) := takeDigits rest
      (d :: ds, rest)
    | none => ([], c :: rest)

def ofDigits (ds : List Nat) : Nat :=
  ds.foldl (fun n d => 10 * n + d) 0

def takeSign : List Char → Bool × List Char
  | '-' :: rest => (true, rest)
  | '+' :: rest => (false, rest)
  | rest => (false, rest)

/-- The exponent at the front of a text: `none` when it is begun and has no digit. -/
def takeExponent : List Char → Option (Option Int × List Char)
  | c :: rest =>
    if c = 'e' ∨ c = 'E' then
      let (negative, rest) := takeSign rest
      match takeDigits rest with
      | ([], _) => none
      | (ds, rest) => some (some (if negative then -(ofDigits ds : Int) else ofDigits ds), rest)
    else some (none, c :: rest)
  | [] => some (none, [])

def takeFraction : List Char → List Nat × List Char
  | '.' :: rest => takeDigits rest
  | rest => ([], rest)

def Numeral.read? (text : List Char) : Option Numeral :=
  let (negative, rest) := takeSign text
  let (whole, rest) := takeDigits rest
  let (fraction, rest) := takeFraction rest
  if whole.isEmpty && fraction.isEmpty then none
  else
    match takeExponent rest with
    | some (exponent, []) => some ⟨negative, whole, fraction, exponent⟩
    | _ => none

/-- `coefficient * 10 ^ exponent`, rounded to the nearest number. Values beyond the range are
settled by their size, so the power of ten stays small. -/
def nearestScaled (coefficient : Nat) (exponent : Int) : Float :=
  let position := coefficient.repr.length + exponent
  if coefficient = 0 ∨ position < -330 then 0.0
  else if 330 < position then 1.0 / 0.0
  else
    match exponent with
    | .ofNat e => Float.ofScientific coefficient false e
    | .negSucc e => Float.ofScientific coefficient true (e + 1)

def signed (negative : Bool) (x : Float) : Float :=
  if negative then -x else x

def Numeral.nearest (n : Numeral) : Float :=
  signed n.negative (nearestScaled (ofDigits (n.whole ++ n.fraction))
    (n.exponent.getD 0 - n.fraction.length))

def read? (text : String) : Option Float :=
  let (negative, name) := takeSign text.toList
  let name := name.map Char.toLower
  if name = "inf".toList ∨ name = "infinity".toList then some (signed negative (1.0 / 0.0))
  else if name = "nan".toList then some (0.0 / 0.0)
  else (Numeral.read? text.toList).map Numeral.nearest

/-- Append digits to a significand while it stays below `2 ^ 64`; the digits left over. -/
def absorb (significand : Nat) : List Nat → Nat × List Nat
  | [] => (significand, [])
  | d :: ds =>
    let next := significand * 10 + d
    if next < UInt64.size then absorb next ds else (significand, d :: ds)

def powerOfTen (e : Nat) : Float :=
  Float.ofScientific 1 false e

/-- Scale by a power of ten in steps that the range allows; `none` beyond the range. -/
def scaleByTen (x : Float) (exponent : Int) : Option Float :=
  if 308 < exponent then if x == 0.0 then some x else none
  else if 0 ≤ exponent then
    let scaled := x * powerOfTen exponent.toNat
    if scaled.isInf then none else some scaled
  else if -308 ≤ exponent then some (x / powerOfTen (-exponent).toNat)
  else if x == 0.0 then some x
  else scaleByTen (x / powerOfTen 308) (exponent + 308)
termination_by (-exponent).toNat

/-- The exponent of a numeral within 32 bits; `none` when its own digits exceed them. -/
def boundedExponent (start : Int) (written : Option Int) : Option Int :=
  match written with
  | none => some start
  | some e =>
    if Int32.maxValue.toInt < e.natAbs then none
    else some (max Int32.minValue.toInt (min Int32.maxValue.toInt (start + e)))

/-- The number a data file means by a numeral with a fraction or an exponent, or by one whose
whole part exceeds 64 bits. `none` when the magnitude is beyond the range. -/
def Numeral.bounded (n : Numeral) : Option Float :=
  let (whole, dropped) := absorb 0 n.whole
  let (significand, ignored) := absorb whole n.fraction
  let start : Int := dropped.length - (n.fraction.length - ignored.length : Nat)
  let value :=
    match boundedExponent start n.exponent with
    | some exponent => scaleByTen significand.toUInt64.toFloat exponent
    | none => if significand ≠ 0 ∧ 0 < n.exponent.getD 0 then none else some 0.0
  value.map (signed n.negative)

end Horizon.Number
