import Horizon.Integers
import Horizon.Json.Reader
import Horizon.Number.Reading
import Horizon.Number.Text

/-! The meaning of JSON values: text, numbers, records and variants.

A record is an object with its fields in any order, or an array of them in the declared order. Keys
that it does not know are passed over, but they have to be text, and a known key occurs once.
-/

set_option autoImplicit false

namespace Horizon.Json

def hexValue (c : Char) : Nat :=
  if c.isDigit then c.toNat - 48 else (c.toNat ||| 32) - 87

def hexValues (cs : List Char) : Nat :=
  cs.foldl (fun n c => 16 * n + hexValue c) 0

def escaped (c : Char) : Char :=
  match c with
  | 'b' => '\x08'
  | 'f' => '\x0c'
  | 'n' => '\n'
  | 'r' => '\r'
  | 't' => '\t'
  | c => c

/-- The octets that a string means. A high surrogate has to be followed by a low one, and a low
one has to follow it; `pending` is the high one. -/
def unescape (pending : Option Nat) : Octets → Option Octets
  | [] => if pending.isSome then none else some []
  | '\\' :: 'u' :: a :: b :: c :: d :: rest =>
    let unit := hexValues [a, b, c, d]
    match pending with
    | some high =>
      if 0xDC00 ≤ unit ∧ unit < 0xE000 then
        let code := 0x10000 + (high - 0xD800) * 0x400 + (unit - 0xDC00)
        (unescape none rest).map (octets (String.singleton (Char.ofNat code)) ++ ·)
      else none
    | none =>
      if 0xD800 ≤ unit ∧ unit < 0xDC00 then unescape (some unit) rest
      else if 0xDC00 ≤ unit ∧ unit < 0xE000 then none
      else (unescape none rest).map (octets (String.singleton (Char.ofNat unit)) ++ ·)
  | '\\' :: c :: rest =>
    if pending.isSome then none else (unescape none rest).map (escaped c :: ·)
  | c :: rest => if pending.isSome then none else (unescape none rest).map (c :: ·)

def decodeText? (raw : Octets) : Option String := do
  let meant ← unescape none raw
  String.fromUTF8? ⟨(meant.map fun c => UInt8.ofNat c.toNat).toArray⟩

namespace Value

def text? : Value → Option String
  | .string raw => decodeText? raw
  | _ => none

def numeral? : Value → Option Number.Numeral
  | .number numeral => Number.Numeral.read? numeral
  | _ => none

/-- The integer of a numeral that has neither fraction nor exponent. -/
def plainInteger? (v : Value) : Option Int := do
  let n ← v.numeral?
  if n.fraction.isEmpty && n.exponent.isNone then
    let magnitude := Number.ofDigits n.whole
    if n.negative then
      -- negative zero is a float
      if magnitude = 0 then none else return -(magnitude : Int)
    else return magnitude
  else none

def unsigned? (v : Value) : Option Nat := do
  let n ← v.plainInteger?
  if 0 ≤ n ∧ n < UInt64.size then return n.toNat else none

def signed? (v : Value) : Option Int := do
  let n ← v.plainInteger?
  if IsWord n then return n else none

def float? (v : Value) : Option Float := do
  (← v.numeral?).bounded

def optional? {β : Type} (decode : Value → Option β) : Value → Option (Option β)
  | .null => some none
  | v => (decode v).map some

def list? {β : Type} (decode : Value → Option β) : Value → Option (List β)
  | .array items => items.mapM decode
  | _ => none

/-- A finite number; JSON has no other, so they become null. -/
def ofFloat (x : Float) : Value :=
  if x.isFinite then .number (Number.compact x).toList else .null

end Value

def decodeKeys (members : List (Octets × Value)) : Option (List (String × Value)) :=
  members.mapM fun (key, value) => do return (← decodeText? key, value)

/-- The fields of a record: by name, or by position. -/
inductive Fields where
  | named (members : List (String × Value))
  | positional (items : List Value)

def Value.fields? (names : List String) : Value → Option Fields
  | .object members => do
    let members ← decodeKeys members
    let known := (members.map Prod.fst).filter names.contains
    if known.eraseDups.length = known.length then return .named members else none
  | .array items => if items.length ≤ names.length then some (.positional items) else none
  | _ => none

def Fields.get? (fields : Fields) (position : Nat) (name : String) : Option Value :=
  match fields with
  | .named members => members.lookup name
  | .positional items => items[position]?

def Fields.required {β : Type} (fields : Fields) (position : Nat) (name : String)
    (decode : Value → Option β) : Option β :=
  (fields.get? position name).bind decode

def Fields.optional {β : Type} (fields : Fields) (position : Nat) (name : String) (default : β)
    (decode : Value → Option β) : Option β :=
  match fields.get? position name with
  | some v => decode v
  | none => some default

/-- A field that may be null, and may be missing when fields have names. -/
def Fields.nullable {β : Type} (fields : Fields) (position : Nat) (name : String)
    (decode : Value → Option β) : Option (Option β) :=
  match fields.get? position name with
  | some v => v.optional? decode
  | none =>
    match fields with
    | .named _ => some none
    | .positional _ => none

/-- A variant: its name, and what stands with it. A lone name stands with null. -/
def Value.variant? : Value → Option (String × Option Value)
  | .object [(key, content)] => do return (← decodeText? key, some content)
  | v => do return (← v.text?, none)

def isUnit : Option Value → Bool
  | none => true
  | some .null => true
  | _ => false

end Horizon.Json
