/-
  GraphQL names: a letter or underscore, then letters, digits and underscores,
  all of them ASCII.
-/

namespace QueryShapes

namespace Name

/-- A character that can begin a name. -/
def isStart (c : Char) : Bool :=
  c = '_' || ('a' ≤ c && c ≤ 'z') || ('A' ≤ c && c ≤ 'Z')

/-- A character that can continue a name. -/
def isContinue (c : Char) : Bool := isStart c || ('0' ≤ c && c ≤ '9')

/-- Whether the characters form a name. -/
def isValidChars : List Char → Bool
  | [] => false
  | c :: rest => isStart c && rest.all isContinue

/-- Whether a string is a name. -/
def isValid (s : String) : Bool := isValidChars s.toList

/-- The meta field that names the concrete type of an object. -/
def typename : String := "__typename"

end Name

end QueryShapes
