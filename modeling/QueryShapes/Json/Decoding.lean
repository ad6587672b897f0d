/-
  Shapes of encoded values.

  A record is written as an object whose members are its fields, and may also be
  read from an array that lists its fields in order.  A choice between
  alternatives is written as an object with the alternative's name as its only
  key, or as that name alone when the alternative carries nothing.
-/
import QueryShapes.Json.Basic

namespace QueryShapes.Json

mutual

/-- Levels of nesting: enough steps for any reader that goes one level down at a time. -/
def depth : Json → Nat
  | arr items => depthItems items + 1
  | obj members => depthMembers members + 1
  | _ => 1

def depthItems : List Json → Nat
  | [] => 0
  | v :: rest => max v.depth (depthItems rest)

def depthMembers : List (String × Json) → Nat
  | [] => 0
  | (_, v) :: rest => max v.depth (depthMembers rest)

end

/-- The fields of a record.  From an array at least `least` of them must be there. -/
def recordWith? (names : List String) (least : Nat) : Json → Option Object
  | obj members => some members
  | arr items =>
    if least ≤ items.length ∧ items.length ≤ names.length then some (names.zip items) else none
  | _ => none

/-- The fields of a record none of which may be left out of an array. -/
def record? (names : List String) (v : Json) : Option Object := v.recordWith? names names.length

/-- A record that refuses fields it does not know. -/
def closedRecord? (names : List String) (least : Nat) (v : Json) : Option Object :=
  (v.recordWith? names least).filter fun members =>
    members.all fun member => names.contains member.1

/-- A field that must be there. -/
def field? {α : Type} (members : Object) (name : String) (read : Json → Option α) : Option α :=
  (members.get? name).bind read

/-- A field that may be missing or null. -/
def optionalField? {α : Type} (members : Object) (name : String) (read : Json → Option α) :
    Option (Option α) :=
  match members.get? name with
  | none | some null => some none
  | some v => (read v).map some

/-- A field with a value of its own when it is missing; `null` is not missing. -/
def fieldOr? {α : Type} (members : Object) (name : String) (absent : α) (read : Json → Option α) :
    Option α :=
  match members.get? name with
  | none => some absent
  | some v => read v

/-- The items of an array, all of them readable. -/
def listOf? {α : Type} (read : Json → Option α) (v : Json) : Option (List α) :=
  v.arr?.bind (·.mapM read)

/-- The members of an object, all of them readable. -/
def entriesOf? {α : Type} (read : Json → Option α) (v : Json) : Option (Entries α) :=
  v.obj?.bind (·.mapM fun (k, v) => (read v).map (k, ·))

/-- The alternative that a value names and what it carries. -/
def alternative? : Json → Option (String × Option Json)
  | str tag => some (tag, none)
  | obj [(tag, v)] => some (tag, some v)
  | _ => none

/-- An alternative that carries nothing may carry an explicit `null`. -/
def nothing? : Option Json → Option Unit
  | none | some null => some ()
  | _ => none

/-- An alternative with its content. -/
def tagged (tag : String) (content : Json) : Json := obj [(tag, content)]

/-- A list of texts. -/
def ofStrings (items : List String) : Json := arr (items.map str)

end QueryShapes.Json
