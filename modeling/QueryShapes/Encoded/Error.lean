/-
  The encoded form of errors.
-/
import QueryShapes.CompileError
import QueryShapes.Encoded.Literal
import QueryShapes.MaterializeError
import QueryShapes.Schema.Error

namespace QueryShapes

open Json (tagged field?)

/-- A record of texts. -/
def encodeTexts (fields : List (String × String)) : Json :=
  .obj (fields.map fun (k, s) => (k, .str s))

/-- The fields that an alternative carries itself; an array does not stand for them. -/
def decodeFields? (content : Option Json) : Option Json.Object := content.bind Json.obj?

/-- The text of a record with one field. -/
def decodeText? (name : String) (content : Option Json) : Option String := do
  field? (← decodeFields? content) name Json.str?

/-- The texts of a record with two fields. -/
def decodePair? (first second : String) (content : Option Json) : Option (String × String) := do
  let fields ← decodeFields? content
  return (← field? fields first Json.str?, ← field? fields second Json.str?)

namespace SchemaError

def encode : SchemaError → Json
  | unknownType name referencedBy =>
    tagged "UnknownType" (encodeTexts [("name", name), ("referenced_by", referencedBy)])
  | missingQueryType name => tagged "MissingQueryType" (encodeTexts [("name", name)])
  | duplicateType name => tagged "DuplicateType" (encodeTexts [("name", name)])
  | parse reason => tagged "Parse" (.str reason)
  | validation reason => tagged "Validation" (.str reason)

def decode? (v : Json) : Option SchemaError := do
  let (tag, content) ← Json.alternative? v
  match tag with
  | "UnknownType" =>
    (decodePair? "name" "referenced_by" content).map fun p => unknownType p.1 p.2
  | "MissingQueryType" => (decodeText? "name" content).map missingQueryType
  | "DuplicateType" => (decodeText? "name" content).map duplicateType
  | "Parse" => (content.bind Json.str?).map parse
  | "Validation" => (content.bind Json.str?).map validation
  | _ => none

end SchemaError

namespace CompileError

def encode : CompileError → Json
  | missingArgument field argument =>
    tagged "MissingArgument" (encodeTexts [("field", field), ("argument", argument)])
  | ambiguousSelection key parent =>
    tagged "AmbiguousSelection" (encodeTexts [("response_key", key), ("parent_type", parent)])
  | unresolvedArgument field argument =>
    tagged "UnresolvedArgument" (encodeTexts [("field", field), ("argument", argument)])
  | unknownType name => tagged "UnknownType" (encodeTexts [("name", name)])
  | unknownField field parent =>
    tagged "UnknownField" (encodeTexts [("field", field), ("parent_type", parent)])
  | unknownArgument field argument =>
    tagged "UnknownArgument" (encodeTexts [("field", field), ("argument", argument)])
  | invalidArgumentValue field argument type =>
    tagged "InvalidArgumentValue"
      (encodeTexts [("field", field), ("argument", argument), ("ty", type)])
  | duplicateArgument field argument =>
    tagged "DuplicateArgument" (encodeTexts [("field", field), ("argument", argument)])
  | tooManyArguments field expected found =>
    tagged "TooManyArguments"
      (.obj [("field", .str field), ("expected", .int expected), ("found", .int found)])
  | unknownParameter parameter =>
    tagged "UnknownParameter" (encodeTexts [("parameter", parameter)])
  | duplicateParameter parameter =>
    tagged "DuplicateParameter" (encodeTexts [("parameter", parameter)])
  | missingSubselection field type =>
    tagged "MissingSubselection" (encodeTexts [("field", field), ("ty", type)])
  | subselectionNotAllowed field type =>
    tagged "SubselectionNotAllowed" (encodeTexts [("field", field), ("ty", type)])
  | invalidFragmentTarget fragmentType targetType =>
    tagged "InvalidFragmentTarget"
      (encodeTexts [("fragment_type", fragmentType), ("target_type", targetType)])
  | invalidTypeCondition condition parent =>
    tagged "InvalidTypeCondition"
      (encodeTexts [("type_condition", condition), ("parent_type", parent)])
  | fragmentNameConflict name => tagged "FragmentNameConflict" (encodeTexts [("name", name)])
  | unresolvedFragment condition =>
    tagged "UnresolvedFragment" (encodeTexts [("type_condition", condition)])
  | invalidName name => tagged "InvalidName" (encodeTexts [("name", name)])
  | unsupportedOperation operation =>
    tagged "UnsupportedOperation" (encodeTexts [("operation", operation)])
  | recursionLimitExceeded limit =>
    tagged "RecursionLimitExceeded" (.obj [("limit", .int limit)])

def decode? (v : Json) : Option CompileError := do
  let (tag, content) ← Json.alternative? v
  let one (name : String) (make : String → CompileError) := (decodeText? name content).map make
  let two (first second : String) (make : String → String → CompileError) :=
    (decodePair? first second content).map fun p => make p.1 p.2
  match tag with
  | "MissingArgument" => two "field" "argument" missingArgument
  | "AmbiguousSelection" => two "response_key" "parent_type" ambiguousSelection
  | "UnresolvedArgument" => two "field" "argument" unresolvedArgument
  | "UnknownType" => one "name" unknownType
  | "UnknownField" => two "field" "parent_type" unknownField
  | "UnknownArgument" => two "field" "argument" unknownArgument
  | "InvalidArgumentValue" =>
    let fields ← decodeFields? content
    return invalidArgumentValue (← field? fields "field" Json.str?)
      (← field? fields "argument" Json.str?) (← field? fields "ty" Json.str?)
  | "DuplicateArgument" => two "field" "argument" duplicateArgument
  | "TooManyArguments" =>
    let fields ← decodeFields? content
    return tooManyArguments (← field? fields "field" Json.str?)
      (← field? fields "expected" (Json.nat? 64)) (← field? fields "found" (Json.nat? 64))
  | "UnknownParameter" => one "parameter" unknownParameter
  | "DuplicateParameter" => one "parameter" duplicateParameter
  | "MissingSubselection" => two "field" "ty" missingSubselection
  | "SubselectionNotAllowed" => two "field" "ty" subselectionNotAllowed
  | "InvalidFragmentTarget" => two "fragment_type" "target_type" invalidFragmentTarget
  | "InvalidTypeCondition" => two "type_condition" "parent_type" invalidTypeCondition
  | "FragmentNameConflict" => one "name" fragmentNameConflict
  | "UnresolvedFragment" => one "type_condition" unresolvedFragment
  | "InvalidName" => one "name" invalidName
  | "UnsupportedOperation" => one "operation" unsupportedOperation
  | "RecursionLimitExceeded" =>
    let fields ← decodeFields? content
    return recursionLimitExceeded (← field? fields "limit" (Json.nat? 64))
  | _ => none

end CompileError

namespace MaterializeError

def encode : MaterializeError → Json
  | missingResponseField path field =>
    tagged "MissingResponseField" (.obj [("path", path.encode), ("field", .str field)])
  | nonNullViolation path type =>
    tagged "NonNullViolation" (.obj [("path", path.encode), ("ty", .str type)])
  | scalarCoercion path expected found =>
    tagged "ScalarCoercion"
      (.obj [("path", path.encode), ("expected", .str expected), ("found", .str found)])
  | malformedResponse reason => tagged "MalformedResponse" (encodeTexts [("reason", reason)])
  | deserialization reason => tagged "Deserialization" (encodeTexts [("reason", reason)])

def decode? (v : Json) : Option MaterializeError := do
  let (tag, content) ← Json.alternative? v
  match tag with
  | "MissingResponseField" =>
    let fields ← decodeFields? content
    return missingResponseField (← field? fields "path" Path.decode?)
      (← field? fields "field" Json.str?)
  | "NonNullViolation" =>
    let fields ← decodeFields? content
    return nonNullViolation (← field? fields "path" Path.decode?) (← field? fields "ty" Json.str?)
  | "ScalarCoercion" =>
    let fields ← decodeFields? content
    return scalarCoercion (← field? fields "path" Path.decode?)
      (← field? fields "expected" Json.str?) (← field? fields "found" Json.str?)
  | "MalformedResponse" => (decodeText? "reason" content).map malformedResponse
  | "Deserialization" => (decodeText? "reason" content).map deserialization
  | _ => none

end MaterializeError

end QueryShapes
