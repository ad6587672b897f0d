/-
  Constant values of the query language, their comparison, their JSON form and
  their text in a document.
-/
import QueryShapes.Json.Basic
import QueryShapes.Number.FloatText
import QueryShapes.Text.Numeral
import QueryShapes.Text.Quoted

namespace QueryShapes

/-- A constant value. -/
inductive Literal where
  | null
  | int (i : Int64)
  | float (x : Double)
  | string (s : String)
  | boolean (b : Bool)
  | enum (name : String)
  | list (items : List Literal)
  | object (entries : List (String × Literal))
deriving Inhabited

namespace Literal

/-! ## Comparison -/

mutual

/-- Whether two constants are the same value: floats compare as numbers, objects by their
    entries in any order. -/
def eqv : Literal → Literal → Bool
  | null, null => true
  | int a, int b => a == b
  | float x, float y => x.ieeeEq y
  | string a, string b => a == b
  | boolean a, boolean b => a == b
  | enum a, enum b => a == b
  | list xs, list ys => eqvItems xs ys
  | object xs, object ys => xs.length == ys.length && eqvEntries xs ys
  | _, _ => false

/-- Item by item, and equally many. -/
def eqvItems : List Literal → List Literal → Bool
  | [], [] => true
  | x :: xs, y :: ys => x.eqv y && eqvItems xs ys
  | _, _ => false

/-- Whether every entry of the first object has an equal partner in the second. -/
def eqvEntries : List (String × Literal) → Entries Literal → Bool
  | [], _ => true
  | (k, x) :: rest, ys =>
    (match ys.get? k with
      | some y => x.eqv y
      | none => false) && eqvEntries rest ys

end

/-! ## JSON form -/

mutual

/-- The JSON value of a constant; an enum value is its name as a string. -/
def toJson : Literal → Json
  | null => .null
  | int i => .int i.toInt
  | float x => Json.ofDouble x
  | string s => .str s
  | boolean b => .bool b
  | enum name => .str name
  | list items => .arr (itemsToJson items)
  | object entries => .obj (entriesToJson entries)

def itemsToJson : List Literal → List Json
  | [] => []
  | v :: rest => v.toJson :: itemsToJson rest

def entriesToJson : List (String × Literal) → List (String × Json)
  | [] => []
  | (k, v) :: rest => (k, v.toJson) :: entriesToJson rest

end

/-! ## Text in a document -/

mutual

/-- The text of a constant in a document. -/
def text : Literal → String
  | null => "null"
  | int i => Text.integer i.toInt
  | float x => FloatFormat.document.text x
  | string s => Text.quoted s
  | boolean true => "true"
  | boolean false => "false"
  | enum name => name
  | list items => "[" ++ Text.joined ", " (itemTexts items) ++ "]"
  | object entries => "\x7b" ++ Text.joined ", " (entryTexts entries) ++ "\x7d"

def itemTexts : List Literal → List String
  | [] => []
  | v :: rest => v.text :: itemTexts rest

def entryTexts : List (String × Literal) → List String
  | [] => []
  | (k, v) :: rest => (k ++ ": " ++ v.text) :: entryTexts rest

end

/-- An object constant from its entries in writing order. -/
def ofEntries (pairs : List (String × Literal)) : Literal := object (Entries.ofPairs pairs)

/-- A constant found under a key is smaller than the entries. -/
theorem sizeOf_get?_lt {entries : Entries Literal} {key : String} {v : Literal}
    (h : entries.get? key = some v) : sizeOf v < sizeOf entries := by
  have hm := List.sizeOf_lt_of_mem (Entries.mem_of_get? h)
  simp only [Prod.mk.sizeOf_spec] at hm
  omega

end Literal

end QueryShapes
