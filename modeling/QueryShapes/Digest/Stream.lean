/-
  The byte stream that a value is digested as.

  The stream is made of writes, each a marker byte and its bytes.  Numbers,
  lengths and the positions of alternatives are writes of eight bytes; a string
  is a write of its UTF-8 bytes and a write of one end byte, which no UTF-8 text
  holds.
-/
import QueryShapes.Literal.Basic
import QueryShapes.FieldType

namespace QueryShapes.Digest

/-- The bytes of a stream. -/
abbrev Stream := List UInt8

/-- One write. -/
def write (bytes : List UInt8) : Stream := 0xFF :: bytes

/-- The eight bytes of a number, least significant first. -/
def littleEndian64 (w : UInt64) : List UInt8 :=
  (List.range 8).map fun i => UInt8.ofNat (w.toNat / Nat.pow 256 i)

/-- A word of 64 bits: one write. -/
def word (w : UInt64) : Stream := write (littleEndian64 w)

/-- A length, or the position of an alternative. -/
def number (n : Nat) : Stream := word (UInt64.ofNat n)

def bool (b : Bool) : Stream := write [if b then 1 else 0]

/-- The UTF-8 bytes of a string. -/
def utf8 (s : String) : List UInt8 := s.toList.flatMap String.utf8EncodeChar

/-- A string: its bytes, and an end byte in a write of its own. -/
def string (s : String) : Stream := write (utf8 s) ++ write [0xFF]

/-- An optional value: alternative 0 without it, alternative 1 with it. -/
def option {α : Type} (f : α → Stream) : Option α → Stream
  | none => number 0
  | some a => number 1 ++ f a

/-- The length and then every item. -/
def list {α : Type} (f : α → Stream) (items : List α) : Stream :=
  number items.length ++ items.flatMap f

mutual

/-- A constant: the position of its alternative and what it holds. -/
def literal : Literal → Stream
  | .null => number 0
  | .int i => number 1 ++ word i.toUInt64
  | .float x => number 2 ++ word x.bits
  | .string s => number 3 ++ string s
  | .boolean b => number 4 ++ bool b
  | .enum name => number 5 ++ string name
  | .list items => number 6 ++ (number items.length ++ literals items)
  | .object entries => number 7 ++ (number entries.length ++ literalEntries entries)

def literals : List Literal → Stream
  | [] => []
  | v :: rest => literal v ++ literals rest

def literalEntries : List (String × Literal) → Stream
  | [] => []
  | (k, v) :: rest => string k ++ (literal v ++ literalEntries rest)

end

/-- A type: the position of its alternative and what it wraps. -/
def fieldType : FieldType → Stream
  | .named name => number 0 ++ string name
  | .list item => number 1 ++ fieldType item
  | .nonNull inner => number 2 ++ fieldType inner
  | .string => number 3
  | .int => number 4
  | .float => number 5
  | .id => number 6
  | .boolean => number 7

end QueryShapes.Digest
