import Horizon.Distribution.Tabulated
import Horizon.Json.Decode

/-! Tabulated distributions in JSON. Masses are read as they stand. -/

set_option autoImplicit false

namespace Horizon.Tabulated

def ofJson? (v : Json.Value) : Option (Tabulated Float) := do
  let fields ← v.fields? ["offset", "masses"]
  let offset ← fields.required 0 "offset" Json.Value.signed?
  let masses ← fields.required 1 "masses" (Json.Value.list? Json.Value.float?)
  return ⟨offset, masses.toArray⟩

def read? (text : String) : Option (Tabulated Float) :=
  (Json.read? (Json.octets text)).bind ofJson?

end Horizon.Tabulated
