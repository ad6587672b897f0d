/-
  Synthesis: writing an operation and its fragments as a GraphQL document.

  Selections keep their order, arguments stand in the order of their
  declaration, and arguments that were left out are not written.
-/
import QueryShapes.CompileError
import QueryShapes.Document.Layout
import QueryShapes.Selection.Basic

namespace QueryShapes.Document

/-! ## Nothing left open -/

/-- The first argument that has no value a document can hold. -/
def unresolvedArgument? (arguments : List FieldArgument) : Option FieldArgument :=
  arguments.find? fun a => match a.value with
    | .parameter _ | .unbound => true
    | _ => false

/-- Checks that every argument has its value, that no marker is left and that every spread
    names one of the definitions. -/
def checkResolved (defined : List String) : List Selection → Except CompileError Unit
  | [] => .ok ()
  | .field f subs :: rest => do
    if let some a := unresolvedArgument? f.arguments then
      throw (.unresolvedArgument f.coordinate a.name)
    checkResolved defined subs
    checkResolved defined rest
  | .inline _ subs :: rest => do
    checkResolved defined subs
    checkResolved defined rest
  | .spread name condition :: rest => do
    if !defined.contains name then throw (.unresolvedFragment condition)
    checkResolved defined rest
  | .marker _ condition _ :: _ => .error (.unresolvedFragment condition)

/-! ## The pieces -/

/-- An argument that is written. -/
def argumentText? (a : FieldArgument) : Option String :=
  match a.value with
  | .literal value => some (a.name ++ ": " ++ value.text)
  | .documentVariable name => some (a.name ++ ": $" ++ name)
  | .default | .parameter _ | .unbound => none

/-- A field with its alias and arguments. -/
def fieldText (f : Field) : String :=
  (match f.aliasName with
    | some aliasName => aliasName ++ ": "
    | none => "") ++ f.name ++ parenthesized (f.arguments.filterMap argumentText?)

/-- Every selection of a list on a line of its own.  A marker, which no resolved list holds, is
    laid out like an inline fragment. -/
def selectionLines (indent : Nat) : List Selection → List Piece
  | [] => []
  | .field f subs :: rest =>
    .line indent :: .text (fieldText f) ::
      ((if subs.isEmpty then []
        else .text " " :: braces indent (selectionLines (indent + 1) subs)) ++
        selectionLines indent rest)
  | .spread name _ :: rest =>
    .line indent :: .text ("..." ++ name) :: selectionLines indent rest
  | .inline condition subs :: rest =>
    .line indent :: .text ("... on " ++ condition ++ " ") ::
      (braces indent (selectionLines (indent + 1) subs) ++ selectionLines indent rest)
  | .marker _ condition subs :: rest =>
    .line indent :: .text ("... on " ++ condition ++ " ") ::
      (braces indent (selectionLines (indent + 1) subs) ++ selectionLines indent rest)

/-- A selection list between braces, at the left margin. -/
def selectionBlock (selections : List Selection) : List Piece :=
  braces 0 (selectionLines 1 selections)

/-- What stands before the selections of an operation. -/
def operationHead (set : SelectionSet) (declarations : List VariableDeclaration) : String :=
  set.kind.keyword ++
    (match set.operationName with
      | some name => " " ++ name
      | none => "") ++
    parenthesized (declarations.map fun v => "$" ++ v.name ++ ": " ++ v.type.text) ++ " "

/-- A fragment definition behind an empty line. -/
def fragmentPieces (fragment : FragmentDefinition) : List Piece :=
  .gap :: .text ("fragment " ++ fragment.name ++ " on " ++ fragment.typeCondition ++ " ") ::
    selectionBlock fragment.selections

/-- The pieces of a document. -/
def pieces (set : SelectionSet) (fragments : List FragmentDefinition)
    (declarations : List VariableDeclaration) : List Piece :=
  .text (operationHead set declarations) ::
    (selectionBlock set.selections ++ fragments.flatMap fragmentPieces)

/-- The document of an operation with its fragments and variables, over many lines or on one. -/
def synthesize (set : SelectionSet) (fragments : List FragmentDefinition)
    (declarations : List VariableDeclaration) (pretty : Bool) : Except CompileError String := do
  let defined := fragments.map (·.name)
  checkResolved defined set.selections
  fragments.forM fun fragment => checkResolved defined fragment.selections
  return render pretty (pieces set fragments declarations)

end QueryShapes.Document
