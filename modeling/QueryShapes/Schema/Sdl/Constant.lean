/-
  Constants of a definition text, as they are written.

  Integers have no bounds, decimals are kept exactly, and an object keeps every
  entry.  `toLiteral` is the value that a schema keeps of a constant.
-/
import QueryShapes.Literal.Basic

namespace QueryShapes.Sdl

/-- A constant. -/
inductive Constant where
  | null
  | int (value : Int)
  /-- The number `coefficient · 10 ^ exponent`, negated if `negative`. -/
  | float (negative : Bool) (coefficient : Nat) (exponent : Int)
  | string (value : String)
  | boolean (value : Bool)
  | enum (name : String)
  | list (items : List Constant)
  | object (entries : List (String × Constant))
deriving Inhabited

namespace Constant

def isNull : Constant → Bool
  | null => true
  | _ => false

/-- The literal of an integer; outside the 64-bit range it is the nearest float. -/
def integerLiteral (i : Int) : Literal :=
  if -0x8000000000000000 ≤ i ∧ i < 0x8000000000000000 then .int (Int64.ofInt i)
  else .float (Double.ofDecimal (i < 0) i.natAbs 0)

mutual

/-- The literal of a constant. A key that an object repeats keeps its first position and takes
    the last value. -/
def toLiteral : Constant → Literal
  | null => .null
  | int i => integerLiteral i
  | float negative coefficient exponent => .float (Double.ofDecimal negative coefficient exponent)
  | string s => .string s
  | boolean b => .boolean b
  | enum name => .enum name
  | list items => .list (itemLiterals items)
  | object entries => Literal.ofEntries (entryLiterals entries)

def itemLiterals : List Constant → List Literal
  | [] => []
  | c :: rest => c.toLiteral :: itemLiterals rest

def entryLiterals : List (String × Constant) → List (String × Literal)
  | [] => []
  | (k, c) :: rest => (k, c.toLiteral) :: entryLiterals rest

end

end Constant

end QueryShapes.Sdl
