/-
  Materialization: rebuilding the declared shape from response data.

  At every object the selections are first listed as steps: the fields that
  apply to this object, in order, with what selects below them.  Each step then
  looks its value up by response key and writes it into the output under that
  key.  A key that several steps write has one place, that of the first, and the
  later steps go on with the value that is there.
-/
import QueryShapes.MaterializeError
import QueryShapes.Schema.Subtyping
import QueryShapes.Selection.Basic

namespace QueryShapes.Materialization

/-- What response data is held against. -/
structure Context where
  schema : Schema
  fragments : List FragmentDefinition

/-! ## Steps -/

/-- What an object's selections ask for, one thing after the other. -/
inductive Step where
  | field (field : Field) (selections : List Selection)
  /-- The selections cannot be followed any further. -/
  | fault (error : MaterializeError)
deriving Inhabited

/-- The type an object says it has. -/
def typename? (object : Json.Object) : Option String :=
  (object.get? Name.typename).bind Json.str?

/-- Whether selections under a type condition apply to an object: its type, as far as it is
    known, is that type or below it. -/
def applies (schema : Schema) (condition parent : String) (typename : Option String) : Bool :=
  let known := typename.getD parent
  known == condition || schema.isSubtype condition known

/-- The definition of a fragment. -/
def Context.fragment? (c : Context) (name : String) : Option FragmentDefinition :=
  c.fragments.find? (·.name = name)

/-- The steps of a selection list on a parent type, given those of a fragment's selections. -/
def stepsWith (c : Context) (typename : Option String)
    (spread : String → List Selection → List Step) (parent : String) :
    List Selection → List Step
  | [] => []
  | .field f subs :: rest => .field f subs :: stepsWith c typename spread parent rest
  | .inline condition subs :: rest =>
    (if applies c.schema condition parent typename then
      stepsWith c typename spread condition subs else []) ++
      stepsWith c typename spread parent rest
  | .marker _ condition subs :: rest =>
    (if applies c.schema condition parent typename then
      stepsWith c typename spread condition subs else []) ++
      stepsWith c typename spread parent rest
  | .spread name condition :: rest =>
    (match c.fragment? name with
      | none => [.fault (.malformedResponse ("fragment '" ++ name ++ "' is not defined"))]
      | some fragment =>
        if applies c.schema condition parent typename then spread condition fragment.selections
        else []) ++ stepsWith c typename spread parent rest

/-- The steps of a selection list, entering spreads up to a depth. -/
def stepsTo (c : Context) (typename : Option String) :
    Nat → String → List Selection → List Step
  | 0, parent, selections =>
    stepsWith c typename (fun _ _ => [.fault (.malformedResponse "fragments form a cycle")])
      parent selections
  | depth + 1, parent, selections =>
    stepsWith c typename (stepsTo c typename depth) parent selections

/-- The number of spreads in a selection list. -/
def spreadCount : List Selection → Nat
  | [] => 0
  | .field _ subs :: rest => spreadCount subs + spreadCount rest
  | .inline _ subs :: rest => spreadCount subs + spreadCount rest
  | .marker _ _ subs :: rest => spreadCount subs + spreadCount rest
  | .spread _ _ :: rest => 1 + spreadCount rest

/-- A chain of spreads in which none comes twice is not longer than this. -/
def Context.spreadDepth (c : Context) : Nat :=
  spreadCount (c.fragments.flatMap (·.selections)) + 1

/-- The steps of a selection list at an object. -/
def Context.steps (c : Context) (object : Json.Object) (parent : String)
    (selections : List Selection) : List Step :=
  stepsTo c (typename? object) c.spreadDepth parent selections

/-! ## Values -/

/-- The refusal of a value at a path. -/
def mismatch (path : Path) (expected : String) (found : Json) : MaterializeError :=
  .scalarCoercion path expected found.kind

/-- A value that must be of a kind, taken over as it is. -/
def keepIf (holds : Bool) (path : Path) (expected : String) (value : Json) :
    Except MaterializeError Json :=
  if holds then .ok value else .error (mismatch path expected value)

/-- An identifier: a string, or an integer as its decimal text. -/
def identifier (path : Path) : Json → Except MaterializeError Json
  | .str s => .ok (.str s)
  | .int i => .ok (.str (Text.integer i))
  | v => .error (mismatch path "ID" v)

/-- The list that the items are written into: the one in place if it has the right length. -/
def listSlots (slot : Json) (length : Nat) : List Json :=
  match slot with
  | .arr old => if old.length = length then old else List.replicate length .null
  | _ => List.replicate length .null

/-- The members of the object in place. -/
def objectSlot (slot : Json) : Json.Object := slot.obj?.getD []

mutual

/-- The output for a value of a declared type, written over what stands in its place. -/
def complete (c : Context) (path : Path) (type : FieldType) (selections : List Selection)
    (value slot : Json) : Except MaterializeError Json :=
  match type, value with
  | .nonNull inner, v =>
    if v.isNull then .error (.nonNullViolation path (FieldType.nonNull inner).text)
    else complete c path inner selections v slot
  | _, .null => .ok .null
  | .list item, .arr items => do
    return .arr (← completeItems c path item selections 0 items (listSlots slot items.length))
  | .list _, v => .error (mismatch path "list" v)
  | .int, v => keepIf v.isInt32 path "Int" v
  | .float, v => keepIf v.isNumber path "Float" v
  | .boolean, v => keepIf v.bool?.isSome path "Boolean" v
  | .string, v => keepIf v.str?.isSome path "String" v
  | .id, v => identifier path v
  | .named name, v =>
    match c.schema.type? name with
    | some (.enum _ words) =>
      keepIf (match v with
        | .str word => words.contains word
        | _ => false) path name v
    | some (.scalar _) => .ok v
    | some (.object _) | some (.interface _) | some (.union _ _) =>
      match v with
      | .obj members => do
        return .obj (← writeSteps c path members (c.steps members name selections)
          (objectSlot slot))
      | v => .error (mismatch path "object" v)
    | _ => .error (.malformedResponse ("type '" ++ name ++ "' cannot appear in a response"))
termination_by (sizeOf value, sizeOf type)

/-- The items of a list from an index on. -/
def completeItems (c : Context) (path : Path) (type : FieldType) (selections : List Selection)
    (index : Nat) (items slots : List Json) : Except MaterializeError (List Json) :=
  match items with
  | [] => .ok []
  | v :: rest => do
    let first ← complete c (path.push (.index index)) type selections v (slots.headD .null)
    let others ← completeItems c path type selections (index + 1) rest (slots.drop 1)
    return first :: others
termination_by (sizeOf items, 0)

/-- The output of an object after the steps.  An injected field is only looked for. -/
def writeSteps (c : Context) (path : Path) (object : Json.Object) (steps : List Step)
    (output : Json.Object) : Except MaterializeError Json.Object :=
  match steps with
  | [] => .ok output
  | .fault error :: _ => .error error
  | .field f subs :: rest =>
    match _h : object.get? f.responseKey with
    | none =>
      if f.type.isNonNull then
        .error (.missingResponseField (path.push (.key f.responseKey)) f.coordinate)
      else if f.injected || output.contains f.responseKey then
        writeSteps c path object rest output
      else writeSteps c path object rest (output.insert f.responseKey .null)
    | some v =>
      if f.injected then writeSteps c path object rest output
      else do
        let slot := (output.get? f.responseKey).getD .null
        let written ← complete c (path.push (.key f.responseKey)) f.type subs v slot
        writeSteps c path object rest (output.insert f.responseKey written)
termination_by (sizeOf object, steps.length)
decreasing_by
  all_goals first
    | exact Prod.Lex.left _ _ (Json.sizeOf_get?_lt _h)
    | exact Prod.Lex.right _ (by simp)

end

/-- The declared shape of a selection set, filled from response data. -/
def materialize (schema : Schema) (set : SelectionSet) (fragments : List FragmentDefinition)
    (data : Json) : Except MaterializeError Json :=
  match data with
  | .obj members => do
    let c : Context := ⟨schema, fragments⟩
    return .obj (← writeSteps c Path.root members (c.steps members set.rootType set.selections) [])
  | data =>
    .error (.malformedResponse ("expected data to be an object, found " ++ data.kind))

/-- Materialization into a type of the caller's. -/
def materializeAs {α : Type} (read : Json → Except String α) (schema : Schema)
    (set : SelectionSet) (fragments : List FragmentDefinition) (data : Json) :
    Except MaterializeError α := do
  match read (← materialize schema set fragments data) with
  | .ok a => return a
  | .error reason => throw (.deserialization reason)

end QueryShapes.Materialization
