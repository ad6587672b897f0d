/-
  Reading executable documents: a scanner and a parser of recursive descent.

  Commas separate tokens like blanks do, and comments are left out.  A line may
  not end in a string on one line.  The parser follows the grammar with one token
  of lookahead, two where a name may be an alias or the word of a type condition.
-/
import QueryShapes.Proofs.Executable.Grammar

namespace QueryShapes.Executable

open Sdl (Token)

/-! ## The scanner -/

/-- Characters that separate tokens. -/
def isSeparator (c : Char) : Bool := Sdl.isIgnored c || c = ','

/-- The token at the beginning of the characters, the first of which separates nothing. -/
def token? : List Char → Option (Token × List Char)
  | '"' :: '"' :: '"' :: rest =>
    (Sdl.blockBody [] rest).map fun (cs, after) => (.string (Sdl.blockValue cs), after)
  | '"' :: rest => (Sdl.stringBody [] rest).map fun (s, after) => (.string s, after)
  | cs => Sdl.token? cs

/-- The tokens of a text; every one takes one unit of fuel, and so does what separates them. -/
def scanWith : Nat → List Char → Option (List Token)
  | _, [] => some []
  | 0, _ :: _ => none
  | fuel + 1, c :: rest =>
    if isSeparator c then scanWith fuel rest
    else if c = '#' then scanWith fuel (rest.dropWhile (!Sdl.isLineEnd ·))
    else do
      let (token, rest) ← token? (c :: rest)
      return token :: (← scanWith fuel rest)

/-- The tokens of a text, if it is made of tokens. -/
def scan? (text : String) : Option (List Token) := scanWith text.toList.length text.toList

/-! ## The parser

Every part is read from the front of the tokens, and comes with the tokens behind it. -/

/-- Items up to a closing token; every one takes one unit of fuel. -/
def upTo {α : Type} (item : List Token → Option (α × List Token)) (closing : Token) :
    Nat → List Token → Option (List α × List Token)
  | 0, _ => none
  | fuel + 1, ts =>
    if ts.head? = some closing then some ([], ts.tail)
    else do
      let (first, rest) ← item ts
      let (others, rest) ← upTo item closing fuel rest
      return (first :: others, rest)

/-- One or more items up to a closing token. -/
def someUpTo {α : Type} (item : List Token → Option (α × List Token)) (closing : Token) (fuel : Nat)
    (ts : List Token) : Option (List α × List Token) :=
  (upTo item closing fuel ts).filter (!·.1.isEmpty)

/-- A part that its first token announces. -/
def optional {α : Type} (opening : Token) (part : List Token → Option (α × List Token)) (absent : α)
    (ts : List Token) : Option (α × List Token) :=
  if ts.head? = some opening then part ts.tail else some (absent, ts)

/-- The value of a word. -/
def wordValue (name : String) : Value :=
  if name = "true" then .boolean true
  else if name = "false" then .boolean false
  else if name = "null" then .null
  else .enum name

/-- A name with a colon and a value behind it. -/
def entry (value : List Token → Option (Value × List Token)) :
    List Token → Option ((String × Value) × List Token)
  | .name name :: .punctuator ':' :: rest => (value rest).map fun (v, rest) => ((name, v), rest)
  | _ => none

def value (constant : Bool) : Nat → List Token → Option (Value × List Token)
  | 0, _ => none
  | fuel + 1, ts =>
    match ts with
    | .punctuator '$' :: .name name :: rest => if constant then none else some (.var name, rest)
    | .int i :: rest => some (.int i, rest)
    | .float negative coefficient exponent :: rest =>
      some (.float (Double.ofDecimal negative coefficient exponent), rest)
    | .string s :: rest => some (.string s, rest)
    | .name name :: rest => some (wordValue name, rest)
    | .punctuator '[' :: rest =>
      (upTo (value constant fuel) (.punctuator ']') fuel rest).map fun (items, rest) =>
        (.list items, rest)
    | .punctuator '{' :: rest =>
      (upTo (entry (value constant fuel)) (.punctuator '}') fuel rest).map fun (entries, rest) =>
        (.object entries, rest)
    | _ => none

def arguments (constant : Bool) (fuel : Nat) : List Token → Option (Arguments × List Token) :=
  optional (.punctuator '(')
    (someUpTo (entry (value constant fuel)) (.punctuator ')') fuel) []

def directives (constant : Bool) : Nat → List Token → Option (List Directive × List Token)
  | fuel + 1, .punctuator '@' :: .name name :: rest => do
    let (given, rest) ← arguments constant fuel rest
    let (others, rest) ← directives constant fuel rest
    return (⟨name, given⟩ :: others, rest)
  | _, .punctuator '@' :: _ => none
  | _, ts => some ([], ts)

/-- A type without the mark behind it. -/
def bareType (type : List Token → Option (FieldType × List Token)) :
    List Token → Option (FieldType × List Token)
  | .name name :: rest => some (FieldType.ofName name, rest)
  | .punctuator '[' :: rest => do
    let (item, rest) ← type rest
    if rest.head? = some (.punctuator ']') then some (.list item, rest.tail) else none
  | _ => none

def type : Nat → List Token → Option (FieldType × List Token)
  | 0, _ => none
  | fuel + 1, ts => do
    let (bare, rest) ← bareType (type fuel) ts
    if rest.head? = some (.punctuator '!') then some (.nonNull bare, rest.tail)
    else some (bare, rest)

def defaultValue (fuel : Nat) : List Token → Option (Option Value × List Token) :=
  optional (.punctuator '=')
    (fun rest => (value true fuel rest).map fun (v, rest) => (some v, rest)) none

def variableDefinition (fuel : Nat) : List Token → Option (VariableDefinition × List Token)
  | .punctuator '$' :: .name name :: .punctuator ':' :: rest => do
    let (type, rest) ← type fuel rest
    let (default, rest) ← defaultValue fuel rest
    let (directives, rest) ← directives true fuel rest
    return (⟨name, type, default, directives⟩, rest)
  | _ => none

def variableDefinitions (fuel : Nat) : List Token → Option (List VariableDefinition × List Token) :=
  optional (.punctuator '(') (someUpTo (variableDefinition fuel) (.punctuator ')') fuel) []

/-- Selections between braces, given how one is read. -/
def block (selection : List Token → Option (Selection × List Token)) (fuel : Nat) :
    List Token → Option (List Selection × List Token)
  | .punctuator '{' :: rest => someUpTo selection (.punctuator '}') fuel rest
  | _ => none

/-- A field behind its name, given how its selections are read. -/
def fieldTail (selection : List Token → Option (Selection × List Token)) (fuel : Nat)
    (aliasName : Option String) (name : String) (ts : List Token) :
    Option (Selection × List Token) := do
  let (given, rest) ← arguments false fuel ts
  let (directives, rest) ← directives false fuel rest
  let (selections, rest) ← optional (.punctuator '{')
    (someUpTo selection (.punctuator '}') fuel) [] rest
  return (.field aliasName name given directives selections, rest)

/-- An inline fragment behind its type condition, given how its selections are read. -/
def inlineTail (selection : List Token → Option (Selection × List Token)) (fuel : Nat)
    (condition : Option String) (ts : List Token) : Option (Selection × List Token) := do
  let (directives, rest) ← directives false fuel ts
  let (selections, rest) ← block selection fuel rest
  return (.inline condition directives selections, rest)

def selection : Nat → List Token → Option (Selection × List Token)
  | 0, _ => none
  | fuel + 1, ts =>
    match ts with
    | .spread :: .name name :: rest =>
      if name = "on" then
        match rest with
        | .name condition :: rest => inlineTail (selection fuel) fuel (some condition) rest
        | _ => none
      else (directives false fuel rest).map fun (ds, rest) => (.spread name ds, rest)
    | .spread :: rest => inlineTail (selection fuel) fuel none rest
    | .name aliasName :: .punctuator ':' :: .name name :: rest =>
      fieldTail (selection fuel) fuel (some aliasName) name rest
    | .name name :: rest => fieldTail (selection fuel) fuel none name rest
    | _ => none

def operationType? (word : String) : Option OperationType :=
  [OperationType.query, .mutation, .subscription].find? (·.keyword = word)

/-- An optional name. -/
def optionalName : List Token → Option String × List Token
  | .name name :: rest => (some name, rest)
  | ts => (none, ts)

/-- An operation behind the word for its type. -/
def operationTail (fuel : Nat) (type : OperationType) (ts : List Token) :
    Option (Definition × List Token) := do
  let (name, rest) := optionalName ts
  let (parameters, rest) ← variableDefinitions fuel rest
  let (directives, rest) ← directives false fuel rest
  let (selections, rest) ← block (selection fuel) fuel rest
  return (.operation type name parameters directives selections, rest)

/-- A fragment definition behind its first word. -/
def fragmentTail (fuel : Nat) : List Token → Option (Definition × List Token)
  | .name name :: .name on :: .name condition :: rest => do
    if name = "on" || on ≠ "on" then none
    let (directives, rest) ← directives false fuel rest
    let (selections, rest) ← block (selection fuel) fuel rest
    return (.fragment name condition directives selections, rest)
  | _ => none

def definition (fuel : Nat) : List Token → Option (Definition × List Token)
  | .name word :: rest =>
    if word = "fragment" then fragmentTail fuel rest
    else (operationType? word).bind fun type => operationTail fuel type rest
  | ts => (block (selection fuel) fuel ts).map fun (selections, rest) =>
      (.operation .query none [] [] selections, rest)

/-- Definitions up to the end; every one takes one unit of fuel. -/
def definitions (fuel : Nat) : Nat → List Token → Option Document
  | _, [] => some []
  | 0, _ :: _ => none
  | count + 1, t :: ts => do
    let (first, rest) ← definition fuel (t :: ts)
    return first :: (← definitions fuel count rest)

/-- The document that the tokens derive. -/
def parse? (ts : List Token) : Option Document :=
  (definitions ts.length ts.length ts).filter (!·.isEmpty)

/-- The document that a text is. -/
def read? (text : String) : Option Document := (scan? text).bind parse?

end QueryShapes.Executable
