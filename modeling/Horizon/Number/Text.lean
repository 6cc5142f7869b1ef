import Horizon.Number.Decimal

/-! Written forms of numbers.

A written form is a choice of decimal (the shortest, or one with a number of places) and a layout
of its digits. Text for people is `plain` or `tagged`, data files use `compact`, and reports use a
`fixed` number of places.
-/

set_option autoImplicit false

namespace Horizon.Number

def zeros (count : Nat) : List Char :=
  List.replicate count '0'

def digits (n : Nat) : List Char :=
  Nat.toDigits 10 n

/-- Put a point in front of the last `places` digits, with at least one digit before it. -/
def pointed (places : Nat) (ds : List Char) : List Char :=
  let padded := zeros (places + 1 - ds.length) ++ ds
  let whole := padded.length - places
  padded.take whole ++ '.' :: padded.drop whole

def Decimal.positional (d : Decimal) : List Char :=
  match d.exponent with
  | .ofNat trailing =>
    if d.coefficient = 0 then ['0'] else digits d.coefficient ++ zeros trailing
  | .negSucc less => pointed (less + 1) (digits d.coefficient)

/-- One digit, the point, the other digits if there are any, and the exponent. -/
def Decimal.scientific (d : Decimal) : List Char :=
  let exponent := 'e' :: (toString (d.pointPosition - 1)).toList
  match digits d.coefficient with
  | [] => exponent
  | [only] => only :: exponent
  | first :: rest => first :: '.' :: rest ++ exponent

def written (x : Float) (body : Float → List Char) : String :=
  if x.isNaN then "NaN"
  else
    let unsigned := if x.isFinite then body x else "inf".toList
    String.ofList (if isNegative x then '-' :: unsigned else unsigned)

/-- The shortest decimal, always positional: `0.1`, `1`, `1000000000000000000000`. -/
def plain (x : Float) : String :=
  written x fun x => (shortest x .up).positional

/-- The positional form with the fraction of a whole number written out. -/
def Decimal.fractional (d : Decimal) : List Char :=
  match d.exponent with
  | .ofNat _ => d.positional ++ ['.', '0']
  | .negSucc _ => d.positional

/-- The shortest decimal, told apart from an integer by its point or exponent. Values from `1e16`
on and below `1e-4` have an exponent. -/
def tagged (x : Float) : String :=
  written x fun x =>
    let d := shortest x .up
    let position := d.pointPosition
    if d.coefficient ≠ 0 ∧ (16 < position ∨ position < -3) then d.scientific
    else d.fractional

/-- The shortest decimal as data files hold it: the exponent starts at `1e16` and below `1e-5`. -/
def compact (x : Float) : String :=
  written x fun x =>
    let d := shortest x .toEven
    let position := d.pointPosition
    if d.coefficient ≠ 0 ∧ (16 < position ∨ position < -4) then d.scientific
    else d.fractional

def fixed (places : Nat) (x : Float) : String :=
  written x fun x => pointed places (digits ((exactDecimal x).fixed places .toEven))

end Horizon.Number
