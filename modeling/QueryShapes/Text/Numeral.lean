/-
  Decimal numerals: the text of an integer and the reading of digit strings.
-/

namespace QueryShapes.Text

/-- ASCII digits, the only digits of every format here. -/
def isDigit (c : Char) : Bool := '0' ≤ c && c ≤ '9'

/-- The value of one more digit behind a numeral. -/
def pushDigit (n : Nat) (c : Char) : Nat := 10 * n + (c.toNat - 48)

/-- The value of a string of digits. -/
def digitsValue (cs : List Char) : Nat := cs.foldl pushDigit 0

/-- The number written by one or more digits, leading zeros allowed. -/
def readDigits? (cs : List Char) : Option Nat :=
  if cs ≠ [] ∧ cs.all isDigit then some (digitsValue cs) else none

/-- The largest index, `2 ^ 64 - 1`. -/
def maxIndex : Nat := 0xFFFFFFFFFFFFFFFF

/-- An index: digits after an optional plus sign, at most `maxIndex`. -/
def readIndex? (cs : List Char) : Option Nat :=
  let digits := match cs with
    | '+' :: rest => rest
    | _ => cs
  (readDigits? digits).filter (· ≤ maxIndex)

/-- The decimal text of an integer. -/
def integer : Int → String
  | .ofNat n => n.repr
  | .negSucc n => "-" ++ (n + 1).repr

/-- Items one after the other, with a separator between two of them. -/
def joined (separator : String) (items : List String) : String :=
  separator.intercalate items

end QueryShapes.Text
