/-
  Type systems: everything that a text defines, put together, and the look-ups
  on it.
-/
import QueryShapes.Entries
import QueryShapes.Schema.Basic
import QueryShapes.Schema.Sdl.Given

namespace QueryShapes.Sdl

/-- What a text defines, together with what every text can use. -/
structure TypeSystem where
  schema : SchemaItem
  /-- The given types, then those of the text in the order of their definitions. -/
  types : Entries TypeItem
  directives : Entries DirectiveItem
deriving Inhabited

/-! ## The types as a schema has them -/

def InputValue.toArgument (v : InputValue) : ArgumentDefinition :=
  ⟨v.name, v.type, v.defaultValue.map Constant.toLiteral⟩

def FieldItem.toField (f : FieldItem) : FieldDefinition :=
  ⟨f.name, f.type, f.arguments.map InputValue.toArgument⟩

/-- An object type or interface of the text. -/
def TypeItem.toObject (t : TypeItem) : ObjectType :=
  ⟨t.name, t.implements, t.fields.map fun f => (f.name, f.toField)⟩

def TypeItem.toDefinition (t : TypeItem) : TypeDefinition :=
  match t.kind with
  | .scalar => .scalar t.name
  | .object => .object t.toObject
  | .interface => .interface t.toObject
  | .union => .union t.name t.members
  | .enum => .ofEnumValues t.name (t.values.map (·.name))
  | .input => .inputObject t.name (t.inputs.map InputValue.toArgument)

/-! ## Look-ups -/

/-- A scalar that the text defines; nothing is known about its values. -/
def TypeItem.isCustomScalar (t : TypeItem) : Bool := t.kind == .scalar && !isGiven t.name

/-- A type whose values can be supplied. -/
def TypeItem.isInput (t : TypeItem) : Bool :=
  t.kind == .scalar || t.kind == .enum || t.kind == .input

namespace TypeSystem

/-- The definitions of the text; given types are no part of them. -/
def definitions (s : TypeSystem) : List TypeDefinition :=
  (s.types.values.filter fun t => !isGiven t.name).map TypeItem.toDefinition

/-- The type under a root operation. -/
def root? (s : TypeSystem) (kind : RootKind) : Option String := s.schema.roots.lookup kind

/-- The type at the bottom of a type reference. -/
def inner? (s : TypeSystem) (type : FieldType) : Option TypeItem := s.types.get? type.innerName

/-- Whether a name is that of a type of this kind. -/
def isOfKind (s : TypeSystem) (kind : TypeKind) (name : String) : Bool :=
  match s.types.get? name with
  | some t => t.kind == kind
  | none => false

/-- Whether values of a type can be supplied. -/
def isInput (s : TypeSystem) (type : FieldType) : Bool :=
  match s.inner? type with
  | some t => t.isInput
  | none => false

/-- Whether values of a type can be answered. -/
def isOutput (s : TypeSystem) (type : FieldType) : Bool :=
  match s.inner? type with
  | some t => t.kind != .input
  | none => false

/-- Whether every value of a named type is one of another: they are the same, or the one is a
    member of the other or says that it implements it. -/
def isSubtype (s : TypeSystem) (sub super : String) : Bool :=
  sub == super ||
    (match s.types.get? super with
      | some t => t.members.contains sub
      | none => false) ||
    match s.types.get? sub with
    | some t => t.implements.contains super
    | none => false

end TypeSystem

end QueryShapes.Sdl
