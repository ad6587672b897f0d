/-
  Types of fields, arguments and variables: a named type under list and
  non-null wrappers.  The five built-in scalars have constructors of their own,
  and `ofName` is the way to a type by its name.
-/

namespace QueryShapes

/-- A type reference. -/
inductive FieldType where
  /-- A type of the schema that is no built-in scalar. -/
  | named (name : String)
  | list (item : FieldType)
  | nonNull (inner : FieldType)
  | string
  | int
  | float
  | id
  | boolean
deriving DecidableEq, Repr, Inhabited

namespace FieldType

/-- The type of a name. -/
def ofName (name : String) : FieldType :=
  if name = "String" then string
  else if name = "Int" then int
  else if name = "Float" then float
  else if name = "ID" then id
  else if name = "Boolean" then boolean
  else named name

/-- The type without null; one wrapper is enough. -/
def required : FieldType → FieldType
  | nonNull inner => nonNull inner
  | other => nonNull other

/-- The name at the bottom of the wrappers. -/
def innerName : FieldType → String
  | named name => name
  | list item => item.innerName
  | nonNull inner => inner.innerName
  | string => "String"
  | int => "Int"
  | float => "Float"
  | id => "ID"
  | boolean => "Boolean"

/-- The text of a type: brackets around list items, `!` behind what is never null. -/
def text : FieldType → String
  | list item => "[" ++ item.text ++ "]"
  | nonNull inner => inner.text ++ "!"
  | other => other.innerName

/-- A built-in scalar without wrappers. -/
def isBuiltinScalar : FieldType → Bool
  | named _ | list _ | nonNull _ => false
  | string | int | float | id | boolean => true

def isNonNull : FieldType → Bool
  | nonNull _ => true
  | _ => false

/-- A list, perhaps under a non-null wrapper. -/
def isList : FieldType → Bool
  | nonNull inner => inner.isList
  | list _ => true
  | _ => false

@[simp] theorem innerName_required (t : FieldType) : t.required.innerName = t.innerName := by
  cases t <;> rfl

theorem required_required (t : FieldType) : t.required.required = t.required := by
  cases t <;> rfl

theorem innerName_ofName (name : String) : (ofName name).innerName = name := by
  unfold ofName
  repeat' split
  all_goals simp_all [innerName]

end FieldType

end QueryShapes
