/-
  Assembly: putting the definitions of a text together.

  Extensions add to the type or schema that they name, wherever it stands in the
  text.  Nothing may be defined twice: no type or directive, no root operation,
  and no part of one type.
-/
import QueryShapes.Schema.Error
import QueryShapes.Schema.Sdl.TypeSystem

namespace QueryShapes.Sdl

/-- The refusal of a text. -/
def refuse {α : Type} (reason : String) : Except SchemaError α := .error (.parse reason)

/-! ## Types and directives -/

/-- A type with what an extension adds. -/
def TypeItem.extend (t addition : TypeItem) : TypeItem :=
  { t with
    directives := t.directives ++ addition.directives
    implements := t.implements ++ addition.implements
    fields := t.fields ++ addition.fields
    members := t.members ++ addition.members
    values := t.values ++ addition.values
    inputs := t.inputs ++ addition.inputs }

/-- The types there are with those of the definitions.  `early` holds the extensions of types
    that are yet to be defined; among them those of another kind than the type add nothing,
    while after the definition such an extension is refused. -/
def collectTypes (types : Entries TypeItem) (early : List TypeItem) :
    List Definition → Except SchemaError (Entries TypeItem)
  | [] =>
    match early with
    | [] => .ok types
    | t :: _ => refuse ("the extended type " ++ t.name ++ " is not defined")
  | .type item :: rest =>
    if types.contains item.name then
      refuse ("the type " ++ item.name ++ " is defined more than once")
    else
      let additions := early.filter fun e => e.name == item.name && e.kind == item.kind
      collectTypes (types ++ [(item.name, additions.foldl TypeItem.extend item)])
        (early.filter (·.name != item.name)) rest
  | .typeExtension addition :: rest =>
    match types.get? addition.name with
    | some t =>
      if t.kind = addition.kind then
        collectTypes (types.insert t.name (t.extend addition)) early rest
      else refuse ("an extension of " ++ t.name ++ " is of another kind")
    | none => collectTypes types (early ++ [addition]) rest
  | _ :: rest => collectTypes types early rest

/-- The directives of the definitions beside the given ones. -/
def collectDirectives (own : List String) (directives : Entries DirectiveItem) :
    List Definition → Except SchemaError (Entries DirectiveItem)
  | [] => .ok directives
  | .directive item :: rest =>
    if own.contains item.name then
      refuse ("the directive " ++ item.name ++ " is defined more than once")
    else collectDirectives (item.name :: own) (directives.insert item.name item) rest
  | _ :: rest => collectDirectives own directives rest

/-- Whether no name comes twice. -/
def allDifferent : List String → Bool
  | [] => true
  | name :: rest => !rest.contains name && allDifferent rest

/-- Whether no part of a type comes twice. -/
def TypeItem.partsDiffer (t : TypeItem) : Bool :=
  allDifferent t.implements && allDifferent (t.fields.map (·.name)) && allDifferent t.members &&
    allDifferent (t.values.map (·.name)) && allDifferent (t.inputs.map (·.name))

/-! ## The schema -/

/-- The word for a root operation in a schema definition. -/
def RootKind.keyword : RootKind → String
  | query => "query"
  | mutation => "mutation"
  | subscription => "subscription"

/-- The root operations of a text without a schema definition: the object types that have the
    usual names. -/
def usualRoots (types : Entries TypeItem) : List (RootKind × String) :=
  [(RootKind.query, "Query"), (.mutation, "Mutation"), (.subscription, "Subscription")].filter
    fun root => match types.get? root.2 with
      | some t => t.kind == .object
      | none => false

/-- The schema definitions of a text. -/
def schemaItems (definitions : List Definition) : List SchemaItem :=
  definitions.filterMap fun
    | .schema item => some item
    | _ => none

/-- The schema extensions of a text. -/
def schemaExtensions (definitions : List Definition) : List SchemaItem :=
  definitions.filterMap fun
    | .schemaExtension item => some item
    | _ => none

/-- The schema of a text.  Without a definition there must be something to extend. -/
def assembleSchema (types : Entries TypeItem) (definitions : List Definition) :
    Except SchemaError SchemaItem := do
  let extensions := schemaExtensions definitions
  let base : SchemaItem ← match schemaItems definitions with
    | [] =>
      let roots := usualRoots types
      if roots.isEmpty && !extensions.isEmpty then refuse "the extended schema is not defined"
      else pure ⟨[], roots⟩
    | [item] => pure item
    | _ => refuse "the schema is defined more than once"
  let roots := base.roots ++ extensions.flatMap (·.roots)
  if !allDifferent (roots.map (·.1.keyword)) then refuse "a root operation is given twice"
  return ⟨base.directives ++ extensions.flatMap (·.directives), roots⟩

/-- Everything that the definitions of a text define. -/
def assemble (definitions : List Definition) : Except SchemaError TypeSystem := do
  let types ← collectTypes (givenTypes.map fun t => (t.name, t)) [] definitions
  if let some t := types.values.find? (!·.partsDiffer) then
    refuse ("a part of " ++ t.name ++ " is defined more than once")
  let given : Entries DirectiveItem := givenDirectives.map fun d => (d.name, d)
  let directives ← collectDirectives [] given definitions
  return ⟨← assembleSchema types definitions, types, directives⟩

end QueryShapes.Sdl
