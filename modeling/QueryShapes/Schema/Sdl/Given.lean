/-
  What every text can use: the built-in scalars, the types of introspection, and
  four directives.

  A text can extend the given types but not define them; it can define a given
  directive anew.
-/
import QueryShapes.Schema.Sdl.Definition

namespace QueryShapes.Sdl

/-! ## Types -/

def givenScalar (name : String) : TypeItem := { kind := .scalar, name }

def givenEnum (name : String) (values : List String) : TypeItem :=
  { kind := .enum, name, values := values.map fun value => ⟨value, []⟩ }

/-- An object type from the names and types of its fields. The fields in `filtered` have an
    argument by which they include what is deprecated. -/
def givenObject (name : String) (filtered : List String) (fields : List (String × FieldType)) :
    TypeItem :=
  let arguments : List InputValue := [⟨"includeDeprecated", .boolean, some (.boolean false), []⟩]
  { kind := .object, name
    fields := fields.map fun f => ⟨f.1, if filtered.contains f.1 then arguments else [], f.2, []⟩ }

/-- A list of values of a type, null among neither. -/
def manyOf (name : String) : FieldType := .list (.nonNull (.named name))

/-- The types that every text can use. -/
def givenTypes : List TypeItem :=
  [givenScalar "String", givenScalar "Int", givenScalar "Float", givenScalar "Boolean",
    givenScalar "ID",
    givenObject "__Schema" [] [
      ("description", .string),
      ("types", .nonNull (manyOf "__Type")),
      ("queryType", .nonNull (.named "__Type")),
      ("mutationType", .named "__Type"),
      ("subscriptionType", .named "__Type"),
      ("directives", .nonNull (manyOf "__Directive"))],
    givenObject "__Type" ["fields", "enumValues", "inputFields"] [
      ("kind", .nonNull (.named "__TypeKind")),
      ("name", .string),
      ("description", .string),
      ("fields", manyOf "__Field"),
      ("interfaces", manyOf "__Type"),
      ("possibleTypes", manyOf "__Type"),
      ("enumValues", manyOf "__EnumValue"),
      ("inputFields", manyOf "__InputValue"),
      ("ofType", .named "__Type"),
      ("specifiedByURL", .string)],
    givenEnum "__TypeKind"
      ["SCALAR", "OBJECT", "INTERFACE", "UNION", "ENUM", "INPUT_OBJECT", "LIST", "NON_NULL"],
    givenObject "__Field" ["args"] [
      ("name", .nonNull .string),
      ("description", .string),
      ("args", .nonNull (manyOf "__InputValue")),
      ("type", .nonNull (.named "__Type")),
      ("isDeprecated", .nonNull .boolean),
      ("deprecationReason", .string)],
    givenObject "__InputValue" [] [
      ("name", .nonNull .string),
      ("description", .string),
      ("type", .nonNull (.named "__Type")),
      ("defaultValue", .string),
      ("isDeprecated", .nonNull .boolean),
      ("deprecationReason", .string)],
    givenObject "__EnumValue" [] [
      ("name", .nonNull .string),
      ("description", .string),
      ("isDeprecated", .nonNull .boolean),
      ("deprecationReason", .string)],
    givenObject "__Directive" ["args"] [
      ("name", .nonNull .string),
      ("description", .string),
      ("locations", .nonNull (manyOf "__DirectiveLocation")),
      ("args", .nonNull (manyOf "__InputValue")),
      ("isRepeatable", .nonNull .boolean)],
    givenEnum "__DirectiveLocation" directiveLocations]

/-- Whether a name is that of a given type. -/
def isGiven (name : String) : Bool := givenTypes.any (·.name == name)

/-! ## Directives -/

/-- A directive with one argument. -/
def givenDirective (name argument : String) (type : FieldType) (defaultValue : Option Constant)
    (locations : List String) : DirectiveItem :=
  ⟨name, [⟨argument, type, defaultValue, []⟩], false, locations⟩

/-- The directives that every text can use and may define anew. -/
def givenDirectives : List DirectiveItem :=
  let selections := ["FIELD", "FRAGMENT_SPREAD", "INLINE_FRAGMENT"]
  [givenDirective "skip" "if" (.nonNull .boolean) none selections,
    givenDirective "include" "if" (.nonNull .boolean) none selections,
    givenDirective "deprecated" "reason" .string (some (.string "No longer supported"))
      ["FIELD_DEFINITION", "ARGUMENT_DEFINITION", "INPUT_FIELD_DEFINITION", "ENUM_VALUE"],
    givenDirective "specifiedBy" "url" (.nonNull .string) none ["SCALAR"]]

end QueryShapes.Sdl
