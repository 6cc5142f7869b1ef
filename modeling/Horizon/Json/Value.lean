/-! JSON documents as trees.

Text is a list of octets, written as the characters of their codes, because a document may hold
octets that are no text in places where nobody looks. Strings and numbers keep the octets they are
written with; objects keep their members in order, and a key may occur twice. Every tree has a
compact written form.
-/

set_option autoImplicit false

namespace Horizon.Json

/-- Octets, as the characters of their codes. -/
abbrev Octets := List Char

def octets (text : String) : Octets :=
  text.toUTF8.toList.map fun b => Char.ofNat b.toNat

inductive Value where
  | null
  | bool (b : Bool)
  | number (numeral : Octets)
  /-- A string, with the octets between its quotes. -/
  | string (raw : Octets)
  | array (items : List Value)
  | object (members : List (Octets × Value))
  deriving Inhabited

def quote (raw : Octets) : Octets :=
  '"' :: (raw ++ ['"'])

mutual

def Value.render : Value → Octets
  | .null => "null".toList
  | .bool true => "true".toList
  | .bool false => "false".toList
  | .number numeral => numeral
  | .string raw => quote raw
  | .array items => '[' :: (renderItems items ++ [']'])
  | .object members => '{' :: (renderMembers members ++ ['}'])

def renderItems : List Value → Octets
  | [] => []
  | [v] => v.render
  | v :: vs => v.render ++ ',' :: renderItems vs

def renderMembers : List (Octets × Value) → Octets
  | [] => []
  | [m] => renderMember m
  | m :: ms => renderMember m ++ ',' :: renderMembers ms

def renderMember : Octets × Value → Octets
  | (key, v) => quote key ++ ':' :: v.render

end

/-- A string of characters that need no escape. -/
def Value.text (s : String) : Value :=
  .string s.toList

def Value.natural (n : Nat) : Value :=
  .number n.repr.toList

end Horizon.Json
