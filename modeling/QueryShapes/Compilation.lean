/-
  Compilation: from a shape to the document that is sent and the selections that
  its response is held against.
-/
import QueryShapes.Analysis.Basic
import QueryShapes.Document.Synthesis
import QueryShapes.Extraction
import QueryShapes.Lifting
import QueryShapes.Settings
import QueryShapes.Shape.Key

namespace QueryShapes

/-- A compiled operation. -/
structure CompiledQuery where
  document : String
  operationName : Option String
  declarations : List VariableDeclaration
  selectionSet : SelectionSet
  fragments : List FragmentDefinition
  key : ShapeKey
deriving Inhabited

/-- Compiles a shape: it is analyzed, its fragments are extracted, its parameters lifted, and
    the document is written. -/
def compile (schema : Schema) (settings : Settings) (shape : OperationShape) :
    Except CompileError CompiledQuery := do
  let analyzed ← Analysis.analyze schema shape settings.recursionLimit
  let (extracted, fragments) ← Extraction.extract analyzed
  let (set, fragments, declarations) := Lifting.lift extracted fragments
  let document ← Document.synthesize set fragments declarations settings.pretty
  return ⟨document, set.operationName, declarations, set, fragments, shape.key⟩

end QueryShapes
