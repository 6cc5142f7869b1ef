import Horizon.Json.Value

/-! Reading JSON documents.

Each function takes an item off the front of a text and returns it with the rest, or `none` when
the text does not begin with such an item. A number has no leading zero, a string has no control
character and no unknown escape, and nothing but blanks follows the value of a document. Nesting
is limited by the length of the text alone.
-/

set_option autoImplicit false

namespace Horizon.Json

def isBlank (c : Char) : Bool :=
  c = ' ' || c = '\n' || c = '\t' || c = '\r'

def skipBlanks (text : Octets) : Octets :=
  text.dropWhile isBlank

def readDigits (text : Octets) : Option (Octets × Octets) :=
  match text.span Char.isDigit with
  | ([], _) => none
  | split => some split

/-- The part of a number that `mark` introduces, if it is there. -/
def readPart (mark : Char → Bool) (body : Octets → Option (Octets × Octets)) (text : Octets) :
    Option (Octets × Octets) :=
  match text with
  | c :: rest =>
    if mark c then (body rest).map fun (digits, rest) => (c :: digits, rest)
    else some ([], text)
  | [] => some ([], [])

def readSignedDigits (text : Octets) : Option (Octets × Octets) :=
  match text with
  | '+' :: rest => (readDigits rest).map fun (digits, rest) => ('+' :: digits, rest)
  | '-' :: rest => (readDigits rest).map fun (digits, rest) => ('-' :: digits, rest)
  | _ => readDigits text

def readMagnitude (text : Octets) : Option (Octets × Octets) := do
  let (whole, rest) ← readDigits text
  if whole.head? = some '0' ∧ 1 < whole.length then none
  else
    let (fraction, rest) ← readPart (· = '.') readDigits rest
    let (exponent, rest) ← readPart (fun c => c = 'e' || c = 'E') readSignedDigits rest
    return (whole ++ fraction ++ exponent, rest)

def readNumber (text : Octets) : Option (Octets × Octets) :=
  match text with
  | '-' :: rest => (readMagnitude rest).map fun (digits, rest) => ('-' :: digits, rest)
  | _ => readMagnitude text

def isHexDigit (c : Char) : Bool :=
  c.isDigit || ('a' ≤ c && c ≤ 'f') || ('A' ≤ c && c ≤ 'F')

def isSimpleEscape (c : Char) : Bool :=
  c = '"' || c = '\\' || c = '/' || c = 'b' || c = 'f' || c = 'n' || c = 'r' || c = 't'

def readString : Octets → Option (Octets × Octets)
  | [] => none
  | '"' :: rest => some ([], rest)
  | '\\' :: 'u' :: a :: b :: c :: d :: rest =>
    if isHexDigit a && isHexDigit b && isHexDigit c && isHexDigit d then
      (readString rest).map fun (raw, rest) => ('\\' :: 'u' :: a :: b :: c :: d :: raw, rest)
    else none
  | '\\' :: c :: rest =>
    if isSimpleEscape c then (readString rest).map fun (raw, rest) => ('\\' :: c :: raw, rest)
    else none
  | c :: rest =>
    if c < ' ' || c = '\\' then none
    else (readString rest).map fun (raw, rest) => (c :: raw, rest)

def readKey (text : Octets) : Option (Octets × Octets) :=
  match skipBlanks text with
  | '"' :: rest => do
    let (raw, rest) ← readString rest
    match skipBlanks rest with
    | ':' :: rest => return (raw, rest)
    | _ => none
  | _ => none

mutual

/-- A value at the front of a text; `fuel` bounds how deep and how far it goes. -/
def readValue : Nat → Octets → Option (Value × Octets)
  | 0, _ => none
  | fuel + 1, text =>
    match skipBlanks text with
    | 'n' :: 'u' :: 'l' :: 'l' :: rest => some (.null, rest)
    | 't' :: 'r' :: 'u' :: 'e' :: rest => some (.bool true, rest)
    | 'f' :: 'a' :: 'l' :: 's' :: 'e' :: rest => some (.bool false, rest)
    | '"' :: rest => (readString rest).map fun (raw, rest) => (.string raw, rest)
    | '[' :: rest =>
      match skipBlanks rest with
      | ']' :: rest => some (.array [], rest)
      | rest => (readItems fuel rest).map fun (items, rest) => (.array items, rest)
    | '{' :: rest =>
      match skipBlanks rest with
      | '}' :: rest => some (.object [], rest)
      | rest => (readMembers fuel rest).map fun (members, rest) => (.object members, rest)
    | text => (readNumber text).map fun (numeral, rest) => (.number numeral, rest)

def readItems : Nat → Octets → Option (List Value × Octets)
  | 0, _ => none
  | fuel + 1, text => do
    let (item, rest) ← readValue fuel text
    match skipBlanks rest with
    | ',' :: rest =>
      let (items, rest) ← readItems fuel rest
      return (item :: items, rest)
    | ']' :: rest => return ([item], rest)
    | _ => none

def readMembers : Nat → Octets → Option (List (Octets × Value) × Octets)
  | 0, _ => none
  | fuel + 1, text => do
    let (key, rest) ← readKey text
    let (value, rest) ← readValue fuel rest
    match skipBlanks rest with
    | ',' :: rest =>
      let (members, rest) ← readMembers fuel rest
      return ((key, value) :: members, rest)
    | '}' :: rest => return ([(key, value)], rest)
    | _ => none

end

def read? (text : Octets) : Option Value :=
  match readValue (2 * text.length + 2) text with
  | some (value, rest) => if (skipBlanks rest).isEmpty then some value else none
  | none => none

end Horizon.Json
