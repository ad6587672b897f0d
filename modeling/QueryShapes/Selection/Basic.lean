/-
  Selections: the tree that an operation's shape becomes once every field and
  argument is looked up in a schema.

  Extraction turns the markers of the tree into spreads, and lifting turns its
  parameters into variables.
-/
import QueryShapes.Name
import QueryShapes.Schema.Basic

namespace QueryShapes

/-- What an argument of a selected field is bound to. -/
inductive ArgumentValue where
  | literal (value : Literal)
  /-- A parameter of the operation. -/
  | parameter (name : String)
  /-- A variable of the document. -/
  | documentVariable (name : String)
  /-- Left out, so that the declared default holds. -/
  | default
  /-- Not bound to anything yet. -/
  | unbound
deriving Inhabited

/-- An argument of a selected field, with its declaration. -/
structure FieldArgument where
  name : String
  type : FieldType
  value : ArgumentValue
  declaredDefault : Option Literal
deriving Inhabited

/-- A selected field without its sub-selections. -/
structure Field where
  name : String
  aliasName : Option String
  parentType : String
  type : FieldType
  arguments : List FieldArgument
  /-- Whether the compiler added the field on its own account. -/
  injected : Bool
deriving Inhabited

namespace Field

/-- The key of the field in the response. -/
def responseKey (f : Field) : String := f.aliasName.getD f.name

/-- The field as `Type.field`. -/
def coordinate (f : Field) : String := f.parentType ++ "." ++ f.name

/-- The meta field on a type. -/
def typename (parentType : String) (aliasName : Option String) (injected : Bool) : Field :=
  ⟨Name.typename, aliasName, parentType, .nonNull .string, [], injected⟩

end Field

/-- A member of a selection list. -/
inductive Selection where
  | field (field : Field) (selections : List Selection)
  /-- A use of a fragment definition. -/
  | spread (fragmentName typeCondition : String)
  | inline (typeCondition : String) (selections : List Selection)
  /-- A reusable fragment that is not extracted yet. -/
  | marker (name : Option String) (typeCondition : String) (selections : List Selection)
deriving Inhabited

/-- The selections of an operation. -/
structure SelectionSet where
  kind : OperationKind
  operationName : Option String
  rootType : String
  selections : List Selection
deriving Inhabited

/-- A fragment of the document. -/
structure FragmentDefinition where
  name : String
  typeCondition : String
  selections : List Selection
deriving Inhabited

/-- A variable of the document. -/
structure VariableDeclaration where
  name : String
  type : FieldType
  /-- The operation parameter that supplies the value. -/
  parameter : String
deriving DecidableEq, Repr, Inhabited

namespace ArgumentValue

/-- Whether two arguments are bound to the same value. -/
def eqv : ArgumentValue → ArgumentValue → Bool
  | literal a, literal b => a.eqv b
  | parameter a, parameter b => a == b
  | documentVariable a, documentVariable b => a == b
  | default, default => true
  | unbound, unbound => true
  | _, _ => false

end ArgumentValue

/-- Whether two optional constants are both absent or the same value. -/
def Literal.optionEqv : Option Literal → Option Literal → Bool
  | none, none => true
  | some a, some b => a.eqv b
  | _, _ => false

namespace FieldArgument

/-- Whether two arguments agree in everything. -/
def eqv (a b : FieldArgument) : Bool :=
  a.name == b.name && a.type == b.type && a.value.eqv b.value &&
    Literal.optionEqv a.declaredDefault b.declaredDefault

/-- Argument by argument, and equally many. -/
def allEqv : List FieldArgument → List FieldArgument → Bool
  | [], [] => true
  | a :: as, b :: bs => a.eqv b && allEqv as bs
  | _, _ => false

end FieldArgument

end QueryShapes
