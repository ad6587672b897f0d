/-
  Paths into a response: list indices and response keys from the root down.

  The text of a path puts a slash before every element.  `ofText` splits at
  slashes, drops empty segments and reads every segment that is an index as one,
  so a key survives the text exactly when it is not empty, holds no slash and
  does not read as an index.
-/
import QueryShapes.Text.Numeral

namespace QueryShapes

/-- One step of a path. -/
inductive PathElement where
  | index (i : Nat)
  | key (name : String)
deriving DecidableEq, Repr, Inhabited

/-- A path, outermost step first. -/
structure Path where
  elements : List PathElement
deriving DecidableEq, Repr, Inhabited

namespace PathElement

/-- The segment of an element. -/
def segment : PathElement → List Char
  | index i => i.repr.toList
  | key name => name.toList

/-- The element a segment stands for. -/
def ofSegment (cs : List Char) : PathElement :=
  match Text.readIndex? cs with
  | some i => index i
  | none => key (String.ofList cs)

end PathElement

/-- The pieces of a text between the occurrences of a separator; one more than it has. -/
def splitAtEach (separator : Char) : List Char → List (List Char)
  | [] => [[]]
  | c :: cs =>
    if c = separator then [] :: splitAtEach separator cs
    else match splitAtEach separator cs with
      | [] => [[c]]
      | piece :: pieces => (c :: piece) :: pieces

namespace Path

/-- The path of no steps. -/
def root : Path := ⟨[]⟩

def length (p : Path) : Nat := p.elements.length

def isRoot (p : Path) : Bool := p.elements.isEmpty

/-- The innermost step. -/
def last? (p : Path) : Option PathElement := p.elements.getLast?

/-- One step further in. -/
def push (p : Path) (e : PathElement) : Path := ⟨p.elements ++ [e]⟩

/-- One step back out, with the step that was taken; the root stays. -/
def pop (p : Path) : Option PathElement × Path := (p.last?, ⟨p.elements.dropLast⟩)

@[simp] theorem last?_push (p : Path) (e : PathElement) : (p.push e).last? = some e := by
  simp [push, last?]

@[simp] theorem pop_push (p : Path) (e : PathElement) : (p.push e).pop = (some e, p) := by
  simp [pop, push, last?]

/-- The characters of a path's text. -/
def chars (p : Path) : List Char := p.elements.flatMap fun e => '/' :: e.segment

/-- The text of a path. -/
def text (p : Path) : String := String.ofList p.chars

/-- The path that the characters of a text stand for. -/
def ofChars (cs : List Char) : Path :=
  ⟨((splitAtEach '/' cs).filter (· ≠ [])).map PathElement.ofSegment⟩

/-- The path that a text stands for. -/
def ofText (s : String) : Path := ofChars s.toList

end Path

end QueryShapes
