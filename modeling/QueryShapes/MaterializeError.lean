/-
  Why a response cannot be rebuilt into the declared shape.
-/
import QueryShapes.Path

namespace QueryShapes

/-- The causes for which response data is refused. -/
inductive MaterializeError where
  | missingResponseField (path : Path) (field : String)
  | nonNullViolation (path : Path) (type : String)
  | scalarCoercion (path : Path) (expected found : String)
  | malformedResponse (reason : String)
  | deserialization (reason : String)
deriving DecidableEq, Repr, Inhabited

namespace MaterializeError

/-- The machine-readable code. -/
def code : MaterializeError → String
  | missingResponseField .. => "MISSING_RESPONSE_FIELD"
  | nonNullViolation .. => "NON_NULL_VIOLATION"
  | scalarCoercion .. => "SCALAR_COERCION_ERROR"
  | malformedResponse .. => "MALFORMED_RESPONSE"
  | deserialization .. => "DESERIALIZATION_ERROR"

/-- The text of the error. -/
def message : MaterializeError → String
  | missingResponseField path field =>
    "non-nullable field '" ++ field ++ "' is missing from the response at '" ++ path.text ++ "'"
  | nonNullViolation path type =>
    "cannot return null for non-nullable type '" ++ type ++ "' at '" ++ path.text ++ "'"
  | scalarCoercion path expected found =>
    "expected " ++ expected ++ " at '" ++ path.text ++ "' but the response holds " ++ found
  | malformedResponse reason => "response was malformed: " ++ reason
  | deserialization reason => "materialized data does not fit the requested type: " ++ reason

end MaterializeError

end QueryShapes
