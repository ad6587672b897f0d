/-
  Analysis: from a shape to the selections of an operation on a schema.
-/
import QueryShapes.Analysis.Merging
import QueryShapes.Analysis.Resolution

namespace QueryShapes.Analysis

/-- Checks that the parameters are names and that none is declared twice. -/
def checkParameters (declared : List String) : List String → Except CompileError Unit
  | [] => .ok ()
  | parameter :: rest => do
    checkName parameter
    if declared.contains parameter then throw (.duplicateParameter parameter)
    checkParameters (parameter :: declared) rest

/-- The selections of a shape on a schema, no list of them deeper than `limit`. -/
def analyze (schema : Schema) (shape : OperationShape) (limit : Nat) :
    Except CompileError SelectionSet := do
  match schema.rootType? shape.kind with
  | none => throw (.unsupportedOperation shape.kind.keyword)
  | some root =>
    if let some name := shape.name then checkName name
    checkParameters [] shape.parameters
    if shape.members.isEmpty then throw (.missingSubselection shape.kind.keyword root)
    let resolver : Resolver := ⟨schema, shape.parameters, limit⟩
    let selections := withTypename root (← resolver.resolveMembers root 0 [] shape.members)
    checkResponseKeys root selections
    return ⟨shape.kind, shape.name, root, selections⟩

end QueryShapes.Analysis
