/-
  Building a schema from a list of definitions: the built-in scalars come first,
  no name is defined twice, and every name that is used is defined.
-/
import QueryShapes.Schema.Basic
import QueryShapes.Schema.Error

namespace QueryShapes

/-- What a schema is built from. -/
structure SchemaBuilder where
  queryType : String := "Query"
  mutationType : Option String := none
  definitions : List TypeDefinition := []

/-- A call on a builder: it names a root, or passes in a definition. -/
inductive BuilderCall where
  | queryType (name : String)
  | mutationType (name : String)
  | definition (d : TypeDefinition)
deriving Inhabited

namespace SchemaBuilder

/-- A builder after one more call. -/
def call (b : SchemaBuilder) : BuilderCall → SchemaBuilder
  | .queryType name => { b with queryType := name }
  | .mutationType name => { b with mutationType := some name }
  | .definition d => { b with definitions := b.definitions ++ [d] }

/-- A new builder after calls. -/
def ofCalls (calls : List BuilderCall) : SchemaBuilder := calls.foldl call {}

end SchemaBuilder

namespace Schema

/-- The scalars that every schema has. A definition may stand in for one of them. -/
def builtinScalars : List String := ["String", "Int", "Float", "Boolean", "ID"]

/-- The definitions of the built-in scalars. -/
def builtins : Entries TypeDefinition :=
  builtinScalars.map fun name => (name, TypeDefinition.scalar name)

/-- Adds definitions under their names; only a built-in scalar may be replaced. -/
def define (types : Entries TypeDefinition) :
    List TypeDefinition → Except SchemaError (Entries TypeDefinition)
  | [] => .ok types
  | d :: rest =>
    if types.contains d.name ∧ ¬ builtinScalars.contains d.name then
      .error (.duplicateType d.name)
    else define (types.insert d.name d) rest

/-- Names that a definition uses, each with the place that uses it. -/
def references : TypeDefinition → List (String × String)
  | .object t | .interface t =>
    t.implements.map (·, t.name) ++
      t.fields.values.flatMap fun f =>
        let coordinate := t.name ++ "." ++ f.name
        (f.type.innerName, coordinate) ::
          f.arguments.map fun a => (a.type.innerName, coordinate ++ "(" ++ a.name ++ ":)")
  | .union name members => members.map (·, name)
  | .inputObject name fields =>
    fields.map fun f => (f.type.innerName, name ++ "." ++ f.name)
  | .enum _ _ | .scalar _ => []

/-- The names used by the schema besides its query root. -/
def allReferences (s : Schema) : List (String × String) :=
  (match s.mutationType with
    | some name => [(name, "schema")]
    | none => []) ++ s.types.values.flatMap references

/-- Checks that the query root is an object type and that every name used is defined. -/
def checkReferences (s : Schema) : Except SchemaError Unit :=
  match s.type? s.queryType with
  | some (.object _) =>
    match s.allReferences.find? (!s.types.contains ·.1) with
    | some (name, referencedBy) => .error (.unknownType name referencedBy)
    | none => .ok ()
  | _ => .error (.missingQueryType s.queryType)

end Schema

/-- The schema of the collected definitions. -/
def SchemaBuilder.build (b : SchemaBuilder) : Except SchemaError Schema := do
  let types ← Schema.define Schema.builtins b.definitions
  let schema : Schema := ⟨b.queryType, b.mutationType, types⟩
  schema.checkReferences
  return schema

end QueryShapes
