/-
  The encoded form of schemas.
-/
import QueryShapes.Encoded.Literal
import QueryShapes.Schema.Basic

namespace QueryShapes

open Json (tagged record? field? optionalField? listOf? entriesOf? ofStrings ofOption)

namespace ArgumentDefinition

def encode (a : ArgumentDefinition) : Json :=
  .obj [("name", .str a.name), ("ty", a.type.encode),
    ("default_value", ofOption Literal.encode a.defaultValue)]

def decode? (v : Json) : Option ArgumentDefinition := do
  let fields ← record? ["name", "ty", "default_value"] v
  return ⟨← field? fields "name" Json.str?, ← field? fields "ty" FieldType.decode?,
    ← optionalField? fields "default_value" Literal.decode?⟩

end ArgumentDefinition

namespace FieldDefinition

def encode (f : FieldDefinition) : Json :=
  .obj [("name", .str f.name), ("ty", f.type.encode),
    ("arguments", .arr (f.arguments.map ArgumentDefinition.encode))]

def decode? (v : Json) : Option FieldDefinition := do
  let fields ← record? ["name", "ty", "arguments"] v
  return ⟨← field? fields "name" Json.str?, ← field? fields "ty" FieldType.decode?,
    ← field? fields "arguments" (listOf? ArgumentDefinition.decode?)⟩

end FieldDefinition

namespace ObjectType

def encode (t : ObjectType) : Json :=
  .obj [("name", .str t.name), ("implements", ofStrings t.implements),
    ("fields", .obj (t.fields.map fun (k, f) => (k, f.encode)))]

def decode? (v : Json) : Option ObjectType := do
  let fields ← record? ["name", "implements", "fields"] v
  return ⟨← field? fields "name" Json.str?, ← field? fields "implements" (listOf? Json.str?),
    ← field? fields "fields" (entriesOf? FieldDefinition.decode?)⟩

end ObjectType

namespace TypeDefinition

def encode : TypeDefinition → Json
  | object t => tagged "Object" t.encode
  | interface t => tagged "Interface" t.encode
  | union name members =>
    tagged "Union" (.obj [("name", .str name), ("members", ofStrings members)])
  | enum name values =>
    tagged "Enum" (.obj [("name", .str name), ("values", ofStrings values)])
  | inputObject name fields =>
    tagged "InputObject" (.obj [("name", .str name),
      ("fields", .arr (fields.map ArgumentDefinition.encode))])
  | scalar name => tagged "Scalar" (.obj [("name", .str name)])

/-- A definition by its tag. -/
def decode? (v : Json) : Option TypeDefinition := do
  let (tag, content) ← Json.alternative? v
  let content ← content
  match tag with
  | "Object" => return object (← ObjectType.decode? content)
  | "Interface" => return interface (← ObjectType.decode? content)
  | "Union" =>
    let fields ← record? ["name", "members"] content
    return union (← field? fields "name" Json.str?) (← field? fields "members" (listOf? Json.str?))
  | "Enum" =>
    let fields ← record? ["name", "values"] content
    let name ← field? fields "name" Json.str?
    return ofEnumValues name (← field? fields "values" (listOf? Json.str?))
  | "InputObject" =>
    let fields ← record? ["name", "fields"] content
    let name ← field? fields "name" Json.str?
    return inputObject name (← field? fields "fields" (listOf? ArgumentDefinition.decode?))
  | "Scalar" =>
    let fields ← record? ["name"] content
    return scalar (← field? fields "name" Json.str?)
  | _ => none

end TypeDefinition

namespace Schema

def encode (s : Schema) : Json :=
  .obj [("query_type", .str s.queryType), ("mutation_type", ofOption Json.str s.mutationType),
    ("types", .obj (s.types.map fun (k, d) => (k, d.encode)))]

def decode? (v : Json) : Option Schema := do
  let fields ← record? ["query_type", "mutation_type", "types"] v
  return ⟨← Json.field? fields "query_type" Json.str?,
    ← optionalField? fields "mutation_type" Json.str?,
    ← Json.field? fields "types" (entriesOf? TypeDefinition.decode?)⟩

end Schema

end QueryShapes
