/-
  Binding the arguments of a field: what a call supplies, by position or by
  name, goes to the declared arguments.
-/
import QueryShapes.CompileError
import QueryShapes.Schema.Coercion
import QueryShapes.Selection.Basic
import QueryShapes.Shape.Basic

namespace QueryShapes.Analysis

/-- What is supplied for the arguments, by name. -/
abbrev Supplied := Entries ArgumentInput

/-- The inputs given by position, under the names of the first declared arguments. -/
def suppliedByPosition (definition : FieldDefinition) (positional : List ArgumentInput) : Supplied :=
  Entries.ofPairs ((definition.arguments.map (·.name)).zip positional)

/-- Adds the inputs given by name; each name is declared and not supplied already. -/
def supplyNamed (coordinate : String) (definition : FieldDefinition) (supplied : Supplied) :
    List (String × ArgumentInput) → Except CompileError Supplied
  | [] => .ok supplied
  | (name, input) :: rest =>
    if !(definition.argument? name).isSome then .error (.unknownArgument coordinate name)
    else if supplied.contains name then .error (.duplicateArgument coordinate name)
    else supplyNamed coordinate definition (supplied.insert name input) rest

/-- The value of one declared argument. -/
def bindArgument (schema : Schema) (parameters : List String) (coordinate : String)
    (supplied : Supplied) (argument : ArgumentDefinition) : Except CompileError FieldArgument :=
  let bound (value : ArgumentValue) : FieldArgument :=
    ⟨argument.name, argument.type, value, argument.defaultValue⟩
  match supplied.get? argument.name with
  | some (.literal value) =>
    if schema.acceptsLiteral argument.type value then .ok (bound (.literal value))
    else .error (.invalidArgumentValue coordinate argument.name argument.type.text)
  | some (.parameter name) =>
    if parameters.contains name then .ok (bound (.parameter name))
    else .error (.unknownParameter name)
  | none =>
    if argument.isRequired then .error (.missingArgument coordinate argument.name)
    else .ok (bound .default)

/-- The declared arguments one after the other. -/
def bindEach (schema : Schema) (parameters : List String) (coordinate : String)
    (supplied : Supplied) : List ArgumentDefinition → Except CompileError (List FieldArgument)
  | [] => .ok []
  | argument :: rest => do
    let first ← bindArgument schema parameters coordinate supplied argument
    let others ← bindEach schema parameters coordinate supplied rest
    return first :: others

/-- The arguments of a field in the order of their declaration. -/
def bindArguments (schema : Schema) (parameters : List String) (coordinate : String)
    (definition : FieldDefinition) (positional : List ArgumentInput)
    (named : List (String × ArgumentInput)) : Except CompileError (List FieldArgument) := do
  if definition.arguments.length < positional.length then
    throw (.tooManyArguments coordinate definition.arguments.length positional.length)
  let supplied ← supplyNamed coordinate definition (suppliedByPosition definition positional) named
  bindEach schema parameters coordinate supplied definition.arguments

end QueryShapes.Analysis
