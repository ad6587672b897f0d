/-
  Resolution: looking up every member of a shape on its parent type.

  Each member becomes one selection, in order.  A list that narrows its type
  selects the meta field `__typename`, so that the response tells which of the
  narrowed selections apply; where the shape does not select it under that key,
  it is added at the end.
-/
import QueryShapes.Analysis.Arguments
import QueryShapes.Schema.Subtyping

namespace QueryShapes.Analysis

/-- What the members of one shape are resolved against. -/
structure Resolver where
  schema : Schema
  /-- The parameters that the operation declares. -/
  parameters : List String
  /-- The greatest depth of a selection list. -/
  limit : Nat

/-- Refuses what is no name. -/
def checkName (name : String) : Except CompileError Unit :=
  if Name.isValid name then .ok () else .error (.invalidName name)

/-- Whether a selection of a list on a type applies to some of its objects only. -/
def Narrows (parent : String) : Selection → Bool
  | .inline condition _ | .marker _ condition _ => condition != parent
  | .field _ _ | .spread _ _ => false

/-- Whether a selection is a field under the response key. -/
def HasKey (key : String) : Selection → Bool
  | .field f _ => f.responseKey == key
  | _ => false

/-- The list with the meta field at its end if it needs and lacks it. -/
def withTypename (parent : String) (selections : List Selection) : List Selection :=
  if selections.any (Narrows parent) && !selections.any (HasKey Name.typename) then
    selections ++ [.field (Field.typename parent none true) []]
  else selections

/-- The response keys of a list with that of one more selection; a field may not repeat one. -/
def takeKey (parent : String) (taken : List String) : Selection → Except CompileError (List String)
  | .field f _ =>
    if taken.contains f.responseKey then .error (.ambiguousSelection f.responseKey parent)
    else .ok (f.responseKey :: taken)
  | _ => .ok taken

namespace Resolver

/-- Refuses a selection list below the greatest depth. -/
def checkDepth (r : Resolver) (depth : Nat) : Except CompileError Unit :=
  if r.limit < depth then .error (.recursionLimitExceeded r.limit) else .ok ()

/-- The meta field, which takes neither arguments nor a sub-selection. -/
def metaField (parent : String) (request : FieldRequest) (hasSelection : Bool) :
    Except CompileError Field :=
  let coordinate := parent ++ "." ++ Name.typename
  if hasSelection then .error (.subselectionNotAllowed coordinate "String!")
  else match request.named, request.positional with
    | (argument, _) :: _, _ => .error (.unknownArgument coordinate argument)
    | [], _ :: _ => .error (.tooManyArguments coordinate 0 request.positional.length)
    | [], [] => .ok (Field.typename parent request.aliasName false)

/-- A declared field; a sub-selection is there exactly if the type takes one, and not empty. -/
def declaredField (r : Resolver) (parent : String) (request : FieldRequest)
    (hasSelection isEmpty : Bool) : Except CompileError Field := do
  match r.schema.field? parent request.name with
  | none => throw (.unknownField request.name parent)
  | some definition =>
    let coordinate := parent ++ "." ++ definition.name
    let arguments ← bindArguments r.schema r.parameters coordinate definition
      request.positional request.named
    let isComposite := r.schema.isComposite definition.type.innerName
    if isComposite && (!hasSelection || isEmpty) then
      throw (.missingSubselection coordinate definition.type.text)
    if !isComposite && hasSelection then
      throw (.subselectionNotAllowed coordinate definition.type.text)
    return ⟨definition.name, request.aliasName, parent, definition.type, arguments, false⟩

/-- A field without its sub-selection. `hasSelection` and `isEmpty` tell of the sub-selection
    that the shape asks for. -/
def field (r : Resolver) (parent : String) (request : FieldRequest)
    (hasSelection isEmpty : Bool) : Except CompileError Field := do
  if let some aliasName := request.aliasName then checkName aliasName
  if request.name = Name.typename then metaField parent request hasSelection
  else r.declaredField parent request hasSelection isEmpty

/-- Checks a fragment used at a position of a type. -/
def checkFragment (r : Resolver) (target : String) (fragment : FragmentHead) (isEmpty : Bool) :
    Except CompileError Unit := do
  if let some name := fragment.name then checkName name
  if !r.schema.isComposite fragment.onType then throw (.unknownType fragment.onType)
  if isEmpty then throw (.missingSubselection (fragment.name.getD "") fragment.onType)
  if !r.schema.typesOverlap target fragment.onType then
    throw (.invalidFragmentTarget fragment.onType target)

/-- Checks members narrowed to a type. -/
def checkCondition (r : Resolver) (parent condition : String) (isEmpty : Bool) :
    Except CompileError Unit := do
  if !r.schema.isComposite condition then throw (.unknownType condition)
  if !r.schema.typesOverlap parent condition then throw (.invalidTypeCondition condition parent)
  if isEmpty then throw (.missingSubselection ("... on " ++ condition) condition)

mutual

/-- The selection of one member of a list at a depth. -/
def resolveMember (r : Resolver) (parent : String) (depth : Nat) :
    Member → Except CompileError Selection
  | .leaf request => do
    return .field (← r.field parent request false false) []
  | .nested request ms => do
    let field ← r.field parent request true ms.isEmpty
    let inner := field.type.innerName
    r.checkDepth (depth + 1)
    let subs ← r.resolveMembers inner (depth + 1) [] ms
    return .field field (withTypename inner subs)
  | .reusing request fragment ms => do
    let field ← r.field parent request true false
    let inner := field.type.innerName
    r.checkFragment inner fragment ms.isEmpty
    r.checkDepth (depth + 2)
    let subs ← r.resolveMembers fragment.onType (depth + 2) [] ms
    let body := withTypename fragment.onType subs
    return .field field (withTypename inner [.marker fragment.name fragment.onType body])
  | .spread fragment ms => do
    r.checkFragment parent fragment ms.isEmpty
    r.checkDepth (depth + 1)
    let subs ← r.resolveMembers fragment.onType (depth + 1) [] ms
    return .marker fragment.name fragment.onType (withTypename fragment.onType subs)
  | .narrowed condition ms => do
    r.checkCondition parent condition ms.isEmpty
    r.checkDepth (depth + 1)
    let subs ← r.resolveMembers condition (depth + 1) [] ms
    return .inline condition (withTypename condition subs)

/-- The selections of the members of a list, whose earlier fields took some response keys. -/
def resolveMembers (r : Resolver) (parent : String) (depth : Nat) (taken : List String) :
    List Member → Except CompileError (List Selection)
  | [] => .ok []
  | m :: rest => do
    let selection ← r.resolveMember parent depth m
    let taken ← takeKey parent taken selection
    let others ← r.resolveMembers parent depth taken rest
    return selection :: others

end

end Resolver

end QueryShapes.Analysis
