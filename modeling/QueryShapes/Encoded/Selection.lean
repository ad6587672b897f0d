/-
  The encoded form of selections, fragment definitions and variables.
-/
import QueryShapes.Encoded.Literal
import QueryShapes.Selection.Basic

namespace QueryShapes

open Json (tagged record? field? optionalField? listOf? ofOption)

namespace OperationKind

def encode (k : OperationKind) : Json := .str k.keyword

def decode? (v : Json) : Option OperationKind := do
  let (tag, content) ← Json.alternative? v
  Json.nothing? content
  match tag with
  | "query" => some query
  | "mutation" => some mutation
  | _ => none

end OperationKind

namespace ArgumentValue

def encode : ArgumentValue → Json
  | literal value => tagged "Literal" value.encode
  | parameter name => tagged "Parameter" (.str name)
  | documentVariable name => tagged "Variable" (.str name)
  | default => .str "Default"
  | unbound => .str "Unbound"

def decode? (v : Json) : Option ArgumentValue := do
  let (tag, content) ← Json.alternative? v
  match tag with
  | "Literal" => (content.bind Literal.decode?).map literal
  | "Parameter" => (content.bind Json.str?).map parameter
  | "Variable" => (content.bind Json.str?).map documentVariable
  | "Default" => (Json.nothing? content).map fun _ => default
  | "Unbound" => (Json.nothing? content).map fun _ => unbound
  | _ => none

end ArgumentValue

namespace FieldArgument

def encode (a : FieldArgument) : Json :=
  .obj [("name", .str a.name), ("ty", a.type.encode), ("value", a.value.encode),
    ("declared_default", ofOption Literal.encode a.declaredDefault)]

def decode? (v : Json) : Option FieldArgument := do
  let fields ← record? ["name", "ty", "value", "declared_default"] v
  return ⟨← field? fields "name" Json.str?, ← field? fields "ty" FieldType.decode?,
    ← field? fields "value" ArgumentValue.decode?,
    ← optionalField? fields "declared_default" Literal.decode?⟩

end FieldArgument

namespace Selection

mutual

def encode : Selection → Json
  | field f subs =>
    tagged "Field" (.obj [("name", .str f.name), ("alias", ofOption Json.str f.aliasName),
      ("parent_type", .str f.parentType), ("field_type", f.type.encode),
      ("arguments", .arr (f.arguments.map FieldArgument.encode)),
      ("selections", .arr (encodeAll subs)), ("injected", .bool f.injected)])
  | spread name condition =>
    tagged "FragmentSpread" (.obj [("fragment_name", .str name),
      ("type_condition", .str condition)])
  | inline condition subs =>
    tagged "InlineFragment" (.obj [("type_condition", .str condition),
      ("selections", .arr (encodeAll subs))])
  | marker name condition subs =>
    tagged "ReusableFragment" (.obj [("name", ofOption Json.str name),
      ("type_condition", .str condition), ("selections", .arr (encodeAll subs))])

def encodeAll : List Selection → List Json
  | [] => []
  | s :: rest => s.encode :: encodeAll rest

end

/-- Reads a selection nested no deeper than the given number of levels. -/
def decodeTo? : Nat → Json → Option Selection
  | 0, _ => none
  | depth + 1, v => do
    let (tag, content) ← Json.alternative? v
    let content ← content
    let selections (fields : Json.Object) := field? fields "selections" (listOf? (decodeTo? depth))
    match tag with
    | "Field" =>
      let fields ← record? ["name", "alias", "parent_type", "field_type", "arguments",
        "selections", "injected"] content
      let head : Field := {
        name := ← field? fields "name" Json.str?
        aliasName := ← optionalField? fields "alias" Json.str?
        parentType := ← field? fields "parent_type" Json.str?
        type := ← field? fields "field_type" FieldType.decode?
        arguments := ← field? fields "arguments" (listOf? FieldArgument.decode?)
        injected := ← field? fields "injected" Json.bool? }
      return field head (← selections fields)
    | "FragmentSpread" =>
      let fields ← record? ["fragment_name", "type_condition"] content
      return spread (← field? fields "fragment_name" Json.str?)
        (← field? fields "type_condition" Json.str?)
    | "InlineFragment" =>
      let fields ← record? ["type_condition", "selections"] content
      return inline (← field? fields "type_condition" Json.str?) (← selections fields)
    | "ReusableFragment" =>
      let fields ← record? ["name", "type_condition", "selections"] content
      return marker (← optionalField? fields "name" Json.str?)
        (← field? fields "type_condition" Json.str?) (← selections fields)
    | _ => none

def decode? (v : Json) : Option Selection := decodeTo? v.depth v

end Selection

namespace SelectionSet

def encode (s : SelectionSet) : Json :=
  .obj [("operation_type", s.kind.encode), ("operation_name", ofOption Json.str s.operationName),
    ("root_type", .str s.rootType), ("selections", .arr (Selection.encodeAll s.selections))]

def decode? (v : Json) : Option SelectionSet := do
  let fields ← record? ["operation_type", "operation_name", "root_type", "selections"] v
  return ⟨← field? fields "operation_type" OperationKind.decode?,
    ← optionalField? fields "operation_name" Json.str?, ← field? fields "root_type" Json.str?,
    ← field? fields "selections" (listOf? Selection.decode?)⟩

end SelectionSet

namespace FragmentDefinition

def encode (f : FragmentDefinition) : Json :=
  .obj [("name", .str f.name), ("type_condition", .str f.typeCondition),
    ("selections", .arr (Selection.encodeAll f.selections))]

def decode? (v : Json) : Option FragmentDefinition := do
  let fields ← record? ["name", "type_condition", "selections"] v
  return ⟨← field? fields "name" Json.str?, ← field? fields "type_condition" Json.str?,
    ← field? fields "selections" (listOf? Selection.decode?)⟩

end FragmentDefinition

namespace VariableDeclaration

def encode (d : VariableDeclaration) : Json :=
  .obj [("name", .str d.name), ("ty", d.type.encode), ("parameter", .str d.parameter)]

def decode? (v : Json) : Option VariableDeclaration := do
  let fields ← record? ["name", "ty", "parameter"] v
  return ⟨← field? fields "name" Json.str?, ← field? fields "ty" FieldType.decode?,
    ← field? fields "parameter" Json.str?⟩

end VariableDeclaration

end QueryShapes
