/-
  Layout: a document as pieces of text and the breaks between them.

  The same pieces make the pretty text, where breaks are line feeds with
  indentation, and the compact text, where every break is one space.
-/

namespace QueryShapes.Document

/-- A piece of a document. -/
inductive Piece where
  | text (s : String)
  /-- A new line, indented by a number of steps. -/
  | line (indent : Nat)
  /-- An empty line and a new one without indentation. -/
  | gap
deriving DecidableEq, Repr, Inhabited

/-- A piece on lines of its own. -/
def Piece.pretty : Piece → String
  | text s => s
  | line indent => "\n" ++ String.ofList (List.replicate (2 * indent) ' ')
  | gap => "\n\n"

/-- A piece on a single line. -/
def Piece.compact : Piece → String
  | text s => s
  | line _ | gap => " "

/-- The text of the pieces. -/
def render (pretty : Bool) (pieces : List Piece) : String :=
  String.join (pieces.map (if pretty then Piece.pretty else Piece.compact))

/-- Items between parentheses, or nothing if there are none. -/
def parenthesized (items : List String) : String :=
  if items.isEmpty then "" else "(" ++ ", ".intercalate items ++ ")"

/-- Lines between braces, the closing one on a line of its own; `{}` around no lines. -/
def braces (indent : Nat) (lines : List Piece) : List Piece :=
  .text "\x7b" :: ((if lines.isEmpty then [] else lines ++ [.line indent]) ++ [.text "\x7d"])

end QueryShapes.Document
