/-
  Block strings: the value between triple quotes.

  Lines lose the indentation that all of them but the first share, and blank
  lines at both ends are dropped.
-/

namespace QueryShapes.Sdl

/-- The blanks that indent a line. -/
def isIndent (c : Char) : Bool := c = ' ' || c = '\t'

/-- A line of blanks only. -/
def isBlankLine (line : List Char) : Bool := line.all isIndent

/-- The lines of a text; a line ends with a carriage return, a line feed, or both in this
    order. -/
def lines : List Char → List (List Char)
  | [] => [[]]
  | '\r' :: '\n' :: rest => [] :: lines rest
  | c :: rest =>
    if c = '\n' || c = '\r' then [] :: lines rest
    else match lines rest with
      | [] => [[c]]
      | line :: others => (c :: line) :: others

/-- The indentation of a line that is not blank. -/
def indentation? (line : List Char) : Option Nat :=
  if isBlankLine line then none else some (line.takeWhile isIndent).length

/-- The indentation shared by the lines that are not blank. -/
def commonIndent (ls : List (List Char)) : Nat := ((ls.filterMap indentation?).min?).getD 0

/-- The lines of a block string without shared indentation and blank ends. -/
def dedent (ls : List (List Char)) : List (List Char) :=
  match ls with
  | [] => []
  | first :: others =>
    let shifted := first :: others.map (·.drop (commonIndent others))
    ((shifted.dropWhile isBlankLine).reverse.dropWhile isBlankLine).reverse

/-- The value of a block string. -/
def blockValue (cs : List Char) : String :=
  String.ofList (['\n'].intercalate (dedent (lines cs)))

end QueryShapes.Sdl
