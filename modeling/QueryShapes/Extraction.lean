/-
  Extraction: turning the reusable fragments of a selection tree into fragment
  definitions.

  Markers with one explicit name and one content form a group.  A group becomes
  a definition when its name is explicit or its content is used at least twice;
  every use is then a spread.  The markers of all other groups are put back
  inline: spliced into the list when they target its parent type, an inline
  fragment otherwise.
-/
import QueryShapes.CompileError
import QueryShapes.Entries
import QueryShapes.Selection.Fingerprint

namespace QueryShapes.Extraction

/-- What markers of one group have in common. -/
structure GroupKey where
  name : Option String
  fingerprint : List UInt8
deriving DecidableEq, Repr

/-- The markers with one explicit name and one content. -/
structure Group where
  key : GroupKey
  typeCondition : String
  occurrences : Nat
deriving Repr

/-- The group of a marker. -/
def groupKey (name : Option String) (typeCondition : String) (subs : List Selection) : GroupKey :=
  ⟨name, fingerprint typeCondition subs⟩

/-! ## Finding the groups -/

/-- Counts one more occurrence of a group. -/
def recount (key : GroupKey) (groups : List Group) : List Group :=
  groups.map fun g => if g.key = key then { g with occurrences := g.occurrences + 1 } else g

/-- The groups of a selection list after the given ones, in order of first appearance.  What a
    marker holds is searched once for every group. -/
def countMarkers (groups : List Group) : List Selection → List Group
  | [] => groups
  | .field _ subs :: rest => countMarkers (countMarkers groups subs) rest
  | .inline _ subs :: rest => countMarkers (countMarkers groups subs) rest
  | .spread _ _ :: rest => countMarkers groups rest
  | .marker name condition subs :: rest =>
    let key := groupKey name condition subs
    if groups.any (·.key = key) then countMarkers (recount key groups) rest
    else countMarkers (countMarkers (groups ++ [⟨key, condition, 1⟩]) subs) rest

/-! ## Naming the definitions -/

/-- The groups that become definitions, with the names of these. -/
abbrev Lifted := List (GroupKey × String)

/-- The name of a definition that has no explicit one: the type and the beginning of the
    fingerprint. -/
def derivedName (typeCondition : String) (fingerprint : List UInt8) : String :=
  typeCondition ++ "Fragment_" ++ Digest.hex (fingerprint.take 4)

/-- Whether the group becomes a definition. -/
def Group.isLifted (g : Group) : Bool := g.key.name.isSome || 2 ≤ g.occurrences

/-- The name of the group's definition. -/
def Group.definitionName (g : Group) : String :=
  g.key.name.getD (derivedName g.typeCondition g.key.fingerprint)

/-- Names the groups that become definitions; no two of them may share a name. -/
def nameGroups (lifted : Lifted) : List Group → Except CompileError Lifted
  | [] => .ok lifted
  | g :: rest =>
    if !g.isLifted then nameGroups lifted rest
    else if lifted.any (·.2 = g.definitionName) then
      .error (.fragmentNameConflict g.definitionName)
    else nameGroups (lifted ++ [(g.key, g.definitionName)]) rest

/-! ## Replacing the markers -/

/-- Definitions by name in order of first use; one whose content is not finished yet has
    its place already. -/
abbrev Definitions := Entries (Option FragmentDefinition)

/-- The name under which a group is lifted. -/
def Lifted.name? (lifted : Lifted) (key : GroupKey) : Option String := lifted.lookup key

/-- Replaces the markers of a selection list on a parent type, adding the definitions that are
    met for the first time. -/
def replaceMarkers (lifted : Lifted) (parent : String) (definitions : Definitions) :
    List Selection → List Selection × Definitions
  | [] => ([], definitions)
  | .field f subs :: rest =>
    let (subs, definitions) := replaceMarkers lifted f.type.innerName definitions subs
    let (others, definitions) := replaceMarkers lifted parent definitions rest
    (.field f subs :: others, definitions)
  | .inline condition subs :: rest =>
    let (subs, definitions) := replaceMarkers lifted condition definitions subs
    let (others, definitions) := replaceMarkers lifted parent definitions rest
    (.inline condition subs :: others, definitions)
  | .spread name condition :: rest =>
    let (others, definitions) := replaceMarkers lifted parent definitions rest
    (.spread name condition :: others, definitions)
  | .marker name condition subs :: rest =>
    match lifted.name? (groupKey name condition subs) with
    | some fragment =>
      if definitions.contains fragment then
        let (others, definitions) := replaceMarkers lifted parent definitions rest
        (.spread fragment condition :: others, definitions)
      else
        let (body, definitions) :=
          replaceMarkers lifted condition (definitions.insert fragment none) subs
        let definition : FragmentDefinition := ⟨fragment, condition, body⟩
        let (others, definitions) :=
          replaceMarkers lifted parent (definitions.insert fragment (some definition)) rest
        (.spread fragment condition :: others, definitions)
    | none =>
      let (body, definitions) := replaceMarkers lifted condition definitions subs
      let (others, definitions) := replaceMarkers lifted parent definitions rest
      (if condition = parent then body ++ others else .inline condition body :: others,
        definitions)

/-- The operation with its markers replaced, and the fragment definitions. -/
def extract (set : SelectionSet) :
    Except CompileError (SelectionSet × List FragmentDefinition) := do
  let lifted ← nameGroups [] (countMarkers [] set.selections)
  let (selections, definitions) := replaceMarkers lifted set.rootType [] set.selections
  return ({ set with selections := selections }, definitions.values.filterMap (·))

end QueryShapes.Extraction
