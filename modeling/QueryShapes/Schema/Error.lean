/-
  Why a schema cannot be had.
-/

namespace QueryShapes

/-- The causes for which a schema is refused. -/
inductive SchemaError where
  | unknownType (name referencedBy : String)
  | missingQueryType (name : String)
  | duplicateType (name : String)
  /-- A definition text with a fault of form, or one that defines something twice. -/
  | parse (reason : String)
  /-- A definition text whose types do not make up a valid schema. -/
  | validation (reason : String)
deriving DecidableEq, Repr, Inhabited

/-- The text of the error. -/
def SchemaError.message : SchemaError → String
  | unknownType name referencedBy =>
    "type '" ++ name ++ "' referenced by '" ++ referencedBy ++ "' is not defined"
  | missingQueryType name => "the query root type '" ++ name ++ "' is not an object type"
  | duplicateType name => "type '" ++ name ++ "' is defined more than once"
  | parse reason => "could not parse schema: " ++ reason
  | validation reason => "invalid schema: " ++ reason

end QueryShapes
