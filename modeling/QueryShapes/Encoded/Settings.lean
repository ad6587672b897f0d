/-
  The encoded form of settings.  Every field has a value when it is missing, and
  fields that are not known are refused.
-/
import QueryShapes.Json.Decoding
import QueryShapes.Settings

namespace QueryShapes.Settings

open Json (closedRecord? fieldOr?)

def encode (s : Settings) : Json :=
  .obj [("recursion_limit", .int s.recursionLimit),
    ("document", .obj [("pretty", .bool s.pretty)]),
    ("cache", .obj [("enabled", .bool s.cacheEnabled)])]

/-- A section that holds one switch, on when it is missing. -/
def decodeSwitch? (name : String) (v : Json) : Option Bool := do
  fieldOr? (← closedRecord? [name] 0 v) name true Json.bool?

def decode? (v : Json) : Option Settings := do
  let fields ← closedRecord? ["recursion_limit", "document", "cache"] 0 v
  return ⟨← fieldOr? fields "recursion_limit" 512 (Json.nat? 64),
    ← fieldOr? fields "document" true (decodeSwitch? "pretty"),
    ← fieldOr? fields "cache" true (decodeSwitch? "enabled")⟩

end QueryShapes.Settings
