/-
  Execution: binding the variables of a compiled operation to the values of its
  parameters, and asking the server.
-/
import QueryShapes.Compilation
import QueryShapes.Exchange.Message

namespace QueryShapes

/-- Why a compiled operation cannot be executed. -/
inductive ExecutionError where
  | missingVariableValue (name parameter : String)
  | invalidVariableValue (name type : String)
  /-- The transport failed, for the reason it gives. -/
  | transport (reason : String)
deriving DecidableEq, Repr, Inhabited

/-- The text of the error. -/
def ExecutionError.message : ExecutionError → String
  | missingVariableValue name parameter =>
    "no value supplied for variable '$" ++ name ++ "' (bound to parameter '" ++ parameter ++ "')"
  | invalidVariableValue name type =>
    "invalid value for variable '$" ++ name ++ "' of type '" ++ type ++ "'"
  | transport reason => "transport failure: " ++ reason

/-- What the transport brings back: a response, or the reason of its failure. -/
abbrev Reply := Except String Response

/-- The values of variables, in the order of their declarations. -/
def bindVariables (schema : Schema) (parameters : Json.Object) (bound : Json.Object) :
    List VariableDeclaration → Except ExecutionError Json.Object
  | [] => .ok bound
  | d :: rest =>
    match parameters.get? d.parameter with
    | none => .error (.missingVariableValue d.name d.parameter)
    | some value =>
      if schema.acceptsValue d.type value then
        bindVariables schema parameters (bound.insert d.name value) rest
      else .error (.invalidVariableValue d.name d.type.text)

namespace CompiledQuery

/-- The variables of a request. -/
def bind (query : CompiledQuery) (schema : Schema) (parameters : Json.Object) :
    Except ExecutionError Json.Object :=
  bindVariables schema parameters [] query.declarations

/-- The request of an execution. -/
def request (query : CompiledQuery) (schema : Schema) (parameters : Json.Object) :
    Except ExecutionError Request := do
  return ⟨query.document, query.operationName, ← query.bind schema parameters⟩

end CompiledQuery

end QueryShapes
