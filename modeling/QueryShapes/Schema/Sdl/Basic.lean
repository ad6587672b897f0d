/-
  Schemas from definition texts: the text is read, its definitions are put
  together and checked, and the schema is built from its types.
-/
import QueryShapes.Schema.Builder
import QueryShapes.Schema.Sdl.Reader
import QueryShapes.Schema.Sdl.Validation

namespace QueryShapes

/-- The builder of a valid text: its types in the order of their definitions. -/
def Sdl.TypeSystem.toBuilder (s : Sdl.TypeSystem) : SchemaBuilder where
  queryType := (s.root? .query).getD "Query"
  mutationType := s.root? .mutation
  definitions := s.definitions

/-- The schema that a text defines. -/
def Schema.ofSdl (text : String) : Except SchemaError Schema := do
  match Sdl.definitions? text with
  | none => throw (.parse "the text is not made of definitions")
  | some definitions =>
    let system ← Sdl.assemble definitions
    Sdl.validate system
    system.toBuilder.build

end QueryShapes
