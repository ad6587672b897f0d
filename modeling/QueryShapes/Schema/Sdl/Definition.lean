/-
  The definitions of a type-system text, as they are written.
-/
import QueryShapes.FieldType
import QueryShapes.Schema.Sdl.Constant

namespace QueryShapes.Sdl

/-- A directive put on something. -/
structure DirectiveUse where
  name : String
  arguments : List (String × Constant)
deriving Inhabited

/-- An argument or a field of an input object. -/
structure InputValue where
  name : String
  type : FieldType
  defaultValue : Option Constant
  directives : List DirectiveUse
deriving Inhabited

/-- Whether a value has to be supplied. -/
def InputValue.isRequired (v : InputValue) : Bool := v.type.isNonNull && !v.defaultValue.isSome

structure FieldItem where
  name : String
  arguments : List InputValue
  type : FieldType
  directives : List DirectiveUse
deriving Inhabited

structure EnumItem where
  name : String
  directives : List DirectiveUse
deriving Inhabited

/-- The kinds of types. -/
inductive TypeKind where
  | scalar
  | object
  | interface
  | union
  | enum
  | input
deriving DecidableEq, Repr, Inhabited

namespace TypeKind

/-- The kind of the types that a word defines. -/
def ofKeyword? : String → Option TypeKind
  | "scalar" => some scalar
  | "type" => some object
  | "interface" => some interface
  | "union" => some union
  | "enum" => some enum
  | "input" => some input
  | _ => none

/-- Where the directives of a type stand. -/
def location : TypeKind → String
  | scalar => "SCALAR"
  | object => "OBJECT"
  | interface => "INTERFACE"
  | union => "UNION"
  | enum => "ENUM"
  | input => "INPUT_OBJECT"

end TypeKind

/-- A type, or what an extension adds to one.  The lists that its kind has no use for are
    empty. -/
structure TypeItem where
  kind : TypeKind
  name : String
  directives : List DirectiveUse := []
  implements : List String := []
  fields : List FieldItem := []
  members : List String := []
  values : List EnumItem := []
  inputs : List InputValue := []
deriving Inhabited

/-- The kinds of root operations. -/
inductive RootKind where
  | query
  | mutation
  | subscription
deriving DecidableEq, Repr, Inhabited

/-- The root operations of a schema, or what an extension adds to them. -/
structure SchemaItem where
  directives : List DirectiveUse
  roots : List (RootKind × String)
deriving Inhabited

/-- Where a directive can be put. -/
def directiveLocations : List String :=
  ["QUERY", "MUTATION", "SUBSCRIPTION", "FIELD", "FRAGMENT_DEFINITION", "FRAGMENT_SPREAD",
    "INLINE_FRAGMENT", "VARIABLE_DEFINITION", "SCHEMA", "SCALAR", "OBJECT", "FIELD_DEFINITION",
    "ARGUMENT_DEFINITION", "INTERFACE", "UNION", "ENUM", "ENUM_VALUE", "INPUT_OBJECT",
    "INPUT_FIELD_DEFINITION"]

/-- A directive that can be put on something. -/
structure DirectiveItem where
  name : String
  arguments : List InputValue
  repeatable : Bool
  locations : List String
deriving Inhabited

/-- A definition. -/
inductive Definition where
  | schema (item : SchemaItem)
  | schemaExtension (item : SchemaItem)
  | type (item : TypeItem)
  | typeExtension (item : TypeItem)
  | directive (item : DirectiveItem)
deriving Inhabited

end QueryShapes.Sdl
