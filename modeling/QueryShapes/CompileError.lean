/-
  Why a shape cannot be compiled.
-/

namespace QueryShapes

/-- The causes for which a shape is refused.  A `field` is the coordinate `Type.field`. -/
inductive CompileError where
  | missingArgument (field argument : String)
  | ambiguousSelection (responseKey parentType : String)
  | unresolvedArgument (field argument : String)
  | unknownType (name : String)
  | unknownField (field parentType : String)
  | unknownArgument (field argument : String)
  | invalidArgumentValue (field argument type : String)
  | duplicateArgument (field argument : String)
  | tooManyArguments (field : String) (expected found : Nat)
  | unknownParameter (parameter : String)
  | duplicateParameter (parameter : String)
  | missingSubselection (field type : String)
  | subselectionNotAllowed (field type : String)
  | invalidFragmentTarget (fragmentType targetType : String)
  | invalidTypeCondition (typeCondition parentType : String)
  | fragmentNameConflict (name : String)
  | unresolvedFragment (typeCondition : String)
  | invalidName (name : String)
  | unsupportedOperation (operation : String)
  | recursionLimitExceeded (limit : Nat)
deriving DecidableEq, Repr, Inhabited

namespace CompileError

/-- The machine-readable code. -/
def code : CompileError → String
  | missingArgument .. => "MISSING_ARGUMENT"
  | ambiguousSelection .. => "AMBIGUOUS_SELECTION"
  | unresolvedArgument .. => "UNRESOLVED_ARGUMENT"
  | unknownType .. => "UNKNOWN_TYPE"
  | unknownField .. => "UNKNOWN_FIELD"
  | unknownArgument .. => "UNKNOWN_ARGUMENT"
  | invalidArgumentValue .. => "INVALID_ARGUMENT_VALUE"
  | duplicateArgument .. => "DUPLICATE_ARGUMENT"
  | tooManyArguments .. => "TOO_MANY_ARGUMENTS"
  | unknownParameter .. => "UNKNOWN_PARAMETER"
  | duplicateParameter .. => "DUPLICATE_PARAMETER"
  | missingSubselection .. => "MISSING_SUBSELECTION"
  | subselectionNotAllowed .. => "SUBSELECTION_NOT_ALLOWED"
  | invalidFragmentTarget .. => "INVALID_FRAGMENT_TARGET"
  | invalidTypeCondition .. => "INVALID_TYPE_CONDITION"
  | fragmentNameConflict .. => "FRAGMENT_NAME_CONFLICT"
  | unresolvedFragment .. => "UNRESOLVED_FRAGMENT"
  | invalidName .. => "INVALID_NAME"
  | unsupportedOperation .. => "UNSUPPORTED_OPERATION"
  | recursionLimitExceeded .. => "RECURSION_LIMIT_EXCEEDED"

/-- The text of the error. -/
def message : CompileError → String
  | missingArgument field argument =>
    "missing value for required argument '" ++ argument ++ "' of field '" ++ field ++ "'"
  | ambiguousSelection responseKey parentType =>
    "response key '" ++ responseKey ++ "' is selected more than once on '" ++ parentType ++
      "', an alias is required"
  | unresolvedArgument field argument =>
    "argument '" ++ argument ++ "' of field '" ++ field ++
      "' reached document synthesis without a value"
  | unknownType name => "unknown type '" ++ name ++ "'"
  | unknownField field parentType =>
    "cannot query field '" ++ field ++ "' on type '" ++ parentType ++ "'"
  | unknownArgument field argument =>
    "field '" ++ field ++ "' has no argument named '" ++ argument ++ "'"
  | invalidArgumentValue field argument type =>
    "value for argument '" ++ argument ++ "' of field '" ++ field ++ "' is not a valid '" ++
      type ++ "'"
  | duplicateArgument field argument =>
    "argument '" ++ argument ++ "' of field '" ++ field ++ "' is supplied more than once"
  | tooManyArguments field expected found =>
    "field '" ++ field ++ "' takes " ++ expected.repr ++ " arguments but " ++ found.repr ++
      " positional values were supplied"
  | unknownParameter parameter =>
    "parameter '" ++ parameter ++ "' is not declared by the operation"
  | duplicateParameter parameter =>
    "parameter '" ++ parameter ++ "' is declared more than once"
  | missingSubselection field type =>
    "field '" ++ field ++ "' of type '" ++ type ++ "' must have a selection of subfields"
  | subselectionNotAllowed field type =>
    "field '" ++ field ++ "' of type '" ++ type ++
      "' is a leaf and cannot have a selection of subfields"
  | invalidFragmentTarget fragmentType targetType =>
    "fragment on '" ++ fragmentType ++ "' cannot be used as the selection of '" ++
      targetType ++ "'"
  | invalidTypeCondition typeCondition parentType =>
    "type condition '" ++ typeCondition ++ "' can never apply to '" ++ parentType ++ "'"
  | fragmentNameConflict name => "fragment name '" ++ name ++ "' is used for different selections"
  | unresolvedFragment typeCondition =>
    "a reusable fragment on '" ++ typeCondition ++
      "' reached document synthesis without being extracted"
  | invalidName name => "'" ++ name ++ "' is not a valid GraphQL name"
  | unsupportedOperation operation =>
    "the schema does not define a root type for " ++ operation ++ " operations"
  | recursionLimitExceeded limit =>
    "selection nesting exceeds the recursion limit of " ++ limit.repr

end CompileError

end QueryShapes
