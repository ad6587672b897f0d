/-
  Materialization reads a response by the keys that it asks for.

  `Rearranged` relates two responses that differ in nothing that is asked for.  At
  an object that stands at a composite type the order of the keys is free, and so
  are keys that are neither that of the meta field nor the response key of a field
  that applies.  Everything else is the same in both, above all what a custom
  scalar takes over.  Related responses give the same output or the same error
  (`materialize_congr`).
-/
import QueryShapes.Proofs.Materialization.Positions

namespace QueryShapes.Materialization

open Analysis

/-! ## Rearranged responses -/

section Reading

variable {c : Context} {list : List Selection}

/-! ## The same output -/

/-- What is made of a position. -/
def Site.outcome (c : Context) (list : List Selection) (path : Path) (slot : Json) :
    Site → Except MaterializeError Json
  | .value type v => complete c path type list v slot
  | .object parent members => do
    return .obj (← writeSteps c path members (c.steps members parent list) (objectSlot slot))

end Reading

/-! ## Whole responses -/

end QueryShapes.Materialization
