/-
  Settings of a client.
-/

namespace QueryShapes

/-- What a client can be told about compiling. -/
structure Settings where
  /-- The greatest depth of a selection list. -/
  recursionLimit : Nat := 512
  /-- Whether documents are written over many lines. -/
  pretty : Bool := true
  /-- Whether compilations are shared between calls. -/
  cacheEnabled : Bool := true
deriving DecidableEq, Repr, Inhabited

end QueryShapes
