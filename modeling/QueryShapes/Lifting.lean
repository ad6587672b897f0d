/-
  Lifting: turning the parameters of a selection tree into document variables.

  A variable is named after the response path of its field and the argument; a
  name that is taken already gets the smallest free number behind it.  The path
  of a field of a fragment definition begins with the fragment's name.
-/
import QueryShapes.Selection.Basic

namespace QueryShapes.Lifting

/-- The variables declared so far, in order. -/
abbrev Declarations := List VariableDeclaration

/-- The name with a number behind it. -/
def numbered (base : String) (n : Nat) : String := base ++ "_" ++ n.repr

/-- The name itself if it is free, otherwise with the smallest number from two on that makes it
    free.  Among one more numbers than there are taken names one is free. -/
def freshName (taken : List String) (base : String) : String :=
  if taken.contains base then
    let candidates := (List.range (taken.length + 1)).map fun n => numbered base (n + 2)
    (candidates.find? (!taken.contains ·)).getD base
  else base

/-- The name of a variable before numbering. -/
def baseName (path : List String) (argument : String) : String :=
  Text.joined "_" path ++ "_" ++ argument

/-- Lifts the parameters of a field's arguments. -/
def liftArguments (path : List String) (declared : Declarations) :
    List FieldArgument → List FieldArgument × Declarations
  | [] => ([], declared)
  | argument :: rest =>
    match argument.value with
    | .parameter parameter =>
      let name := freshName (declared.map (·.name)) (baseName path argument.name)
      let declaration : VariableDeclaration := ⟨name, argument.type, parameter⟩
      let (others, declared) := liftArguments path (declared ++ [declaration]) rest
      ({ argument with value := .documentVariable name } :: others, declared)
    | _ =>
      let (others, declared) := liftArguments path declared rest
      (argument :: others, declared)

/-- Lifts the parameters of a selection list below a response path. -/
def liftSelections (path : List String) (declared : Declarations) :
    List Selection → List Selection × Declarations
  | [] => ([], declared)
  | .field f subs :: rest =>
    let path' := path ++ [f.responseKey]
    let (arguments, declared) := liftArguments path' declared f.arguments
    let (subs, declared) := liftSelections path' declared subs
    let (others, declared) := liftSelections path declared rest
    (.field { f with arguments := arguments } subs :: others, declared)
  | .inline condition subs :: rest =>
    let (subs, declared) := liftSelections path declared subs
    let (others, declared) := liftSelections path declared rest
    (.inline condition subs :: others, declared)
  | .marker name condition subs :: rest =>
    let (subs, declared) := liftSelections path declared subs
    let (others, declared) := liftSelections path declared rest
    (.marker name condition subs :: others, declared)
  | .spread name condition :: rest =>
    let (others, declared) := liftSelections path declared rest
    (.spread name condition :: others, declared)

/-- Lifts the parameters of fragment definitions. -/
def liftFragments (declared : Declarations) :
    List FragmentDefinition → List FragmentDefinition × Declarations
  | [] => ([], declared)
  | fragment :: rest =>
    let (selections, declared) := liftSelections [fragment.name] declared fragment.selections
    let (others, declared) := liftFragments declared rest
    ({ fragment with selections := selections } :: others, declared)

/-- An operation with its fragments, all parameters lifted, and the variables they became. -/
def lift (set : SelectionSet) (fragments : List FragmentDefinition) :
    SelectionSet × List FragmentDefinition × Declarations :=
  let (selections, declared) := liftSelections [] [] set.selections
  let (fragments, declared) := liftFragments declared fragments
  ({ set with selections := selections }, fragments, declared)

end QueryShapes.Lifting
