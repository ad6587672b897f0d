/-
  JSON values with ordered object members, integers and doubles kept apart.

  An object is the list of its members in insertion order; readers build it so
  that no key repeats.
-/
import QueryShapes.Entries
import QueryShapes.Number.Double

namespace QueryShapes

/-- A JSON value. -/
inductive Json where
  | null
  | bool (b : Bool)
  | int (i : Int)
  | float (x : Double)
  | str (s : String)
  | arr (items : List Json)
  | obj (members : List (String × Json))
deriving Inhabited

namespace Json

/-- The members of an object value. -/
abbrev Object := Entries Json

/-- The word for the kind of a value in messages. -/
def kind : Json → String
  | null => "null"
  | bool _ => "boolean"
  | int _ => "integer"
  | float _ => "float"
  | str _ => "string"
  | arr _ => "list"
  | obj _ => "object"

def isNull : Json → Bool
  | null => true
  | _ => false

theorem isNull_iff {v : Json} : v.isNull = true ↔ v = null := by
  cases v <;> simp [isNull]

def str? : Json → Option String
  | str s => some s
  | _ => none

def arr? : Json → Option (List Json)
  | arr items => some items
  | _ => none

def obj? : Json → Option Object
  | obj members => some members
  | _ => none

def bool? : Json → Option Bool
  | bool b => some b
  | _ => none

/-- Whether a value is a number of either sort. -/
def isNumber : Json → Bool
  | int _ => true
  | float _ => true
  | _ => false

/-- An integer in the signed 32-bit range. -/
def isInt32 : Json → Bool
  | int i => -0x80000000 ≤ i && i < 0x80000000
  | _ => false

/-- An integer in the signed 64-bit range. -/
def int64? : Json → Option Int
  | int i => if -0x8000000000000000 ≤ i ∧ i < 0x8000000000000000 then some i else none
  | _ => none

/-- A natural number of at most so many bits. -/
def nat? (bits : Nat) : Json → Option Nat
  | int i => if 0 ≤ i ∧ i < Nat.pow 2 bits then some i.toNat else none
  | _ => none

/-- A float, or an integer taken as the nearest float. -/
def double? : Json → Option Double
  | float x => some x
  | int i => some (Double.ofInt i)
  | _ => none

/-- A number for a float: one that is no number of the format becomes `null`. -/
def ofDouble (x : Double) : Json := if x.isFinite then float x else null

/-- An absent value is `null`. -/
def ofOption {α : Type} (f : α → Json) : Option α → Json
  | none => null
  | some a => f a

/-- A member of an object is smaller than the object's member list. -/
theorem sizeOf_get?_lt {members : Object} {key : String} {v : Json}
    (h : members.get? key = some v) : sizeOf v < sizeOf members := by
  have hm := List.sizeOf_lt_of_mem (Entries.mem_of_get? h)
  simp only [Prod.mk.sizeOf_spec] at hm
  omega

end Json

end QueryShapes
