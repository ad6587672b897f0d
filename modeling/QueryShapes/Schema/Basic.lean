/-
  Schemas: the types an operation is compiled against.

  A schema holds its definitions under their names in the order they were
  defined.  The look-ups here never fail loudly: a name that is not defined has
  no fields, implements nothing and is not composite.
-/
import QueryShapes.Entries
import QueryShapes.FieldType
import QueryShapes.Literal.Basic

namespace QueryShapes

/-- The two kinds of operation. -/
inductive OperationKind where
  | query
  | mutation
deriving DecidableEq, Repr, Inhabited

/-- The word for an operation kind, in documents and in messages. -/
def OperationKind.keyword : OperationKind → String
  | query => "query"
  | mutation => "mutation"

/-- An argument of a field, or a field of an input object. -/
structure ArgumentDefinition where
  name : String
  type : FieldType
  defaultValue : Option Literal
deriving Inhabited

/-- An argument that a call has to supply. -/
def ArgumentDefinition.isRequired (a : ArgumentDefinition) : Bool :=
  a.type.isNonNull && !a.defaultValue.isSome

/-- A field of an object type or interface, with its arguments in order. -/
structure FieldDefinition where
  name : String
  type : FieldType
  arguments : List ArgumentDefinition
deriving Inhabited

/-- The declaration of an argument of the field. -/
def FieldDefinition.argument? (f : FieldDefinition) (name : String) : Option ArgumentDefinition :=
  f.arguments.find? (·.name = name)

/-- An object type or an interface. -/
structure ObjectType where
  name : String
  implements : List String
  fields : Entries FieldDefinition
deriving Inhabited

/-- Adds a field, replacing one of the same name where it stands. -/
def ObjectType.withField (t : ObjectType) (f : FieldDefinition) : ObjectType :=
  { t with fields := t.fields.insert f.name f }

/-- A type of a schema. -/
inductive TypeDefinition where
  | object (type : ObjectType)
  | interface (type : ObjectType)
  | union (name : String) (members : List String)
  | enum (name : String) (values : List String)
  | inputObject (name : String) (fields : List ArgumentDefinition)
  | scalar (name : String)
deriving Inhabited

namespace TypeDefinition

/-- An enum with the given values, repeated ones counted once. -/
def ofEnumValues (name : String) (values : List String) : TypeDefinition :=
  enum name values.eraseDups

/-- The name that the definition itself carries. -/
def name : TypeDefinition → String
  | object t | interface t => t.name
  | union name _ | enum name _ | inputObject name _ | scalar name => name

/-- Types whose fields of theirs take a sub-selection. -/
def isComposite : TypeDefinition → Bool
  | object _ | interface _ | union _ _ => true
  | _ => false

/-- The object or interface of a definition. -/
def objectType? : TypeDefinition → Option ObjectType
  | object t | interface t => some t
  | _ => none

end TypeDefinition

/-- A schema. -/
structure Schema where
  queryType : String
  mutationType : Option String
  types : Entries TypeDefinition
deriving Inhabited

namespace Schema

/-- The root type of an operation kind, if the schema has one. -/
def rootType? (s : Schema) : OperationKind → Option String
  | .query => some s.queryType
  | .mutation => s.mutationType

/-- The definition of a type. -/
def type? (s : Schema) (name : String) : Option TypeDefinition := s.types.get? name

/-- The definition of a field of an object type or interface. -/
def field? (s : Schema) (typeName fieldName : String) : Option FieldDefinition := do
  (← (← s.type? typeName).objectType?).fields.get? fieldName

/-- Whether the name is that of an object type, an interface or a union. -/
def isComposite (s : Schema) (name : String) : Bool :=
  match s.type? name with
  | some d => d.isComposite
  | none => false

/-- The interfaces that a type lists itself. -/
def implementedBy (s : Schema) (name : String) : List String :=
  match (s.type? name).bind TypeDefinition.objectType? with
  | some t => t.implements
  | none => []

/-- The members of a union; every other type has none. -/
def unionMembers (s : Schema) (name : String) : List String :=
  match s.type? name with
  | some (.union _ members) => members
  | _ => []

end Schema

end QueryShapes
