/-
  Reading definitions from tokens.

  A reader takes tokens from the front of the list and gives up at the first
  that does not fit.  Commas before a token are passed over.  Repetitions end by
  the number of tokens that were left.

  Some parts may be left unfinished: a directive argument or an object entry
  without a colon, and a root operation without a type, count for nothing.
-/
import QueryShapes.Schema.Sdl.Definition
import QueryShapes.Schema.Sdl.Token

namespace QueryShapes.Sdl

/-- A reader of tokens. -/
abbrev Reader := StateT (List Token) Option

namespace Reader

/-- The tokens that are left, without the commas before them. -/
def pending : Reader (List Token) := do
  let tokens := (← get).dropWhile (· == .comma)
  set tokens
  return tokens

/-- The next token, left where it is. -/
def peek : Reader (Option Token) := do return (← pending).head?

/-- Takes the next token. -/
def next : Reader Token := do
  match ← pending with
  | t :: rest => set rest; return t
  | [] => failure

/-- Gives up at a comma. -/
def noComma : Reader Unit := do if (← get).head? == some .comma then failure

/-- Whether the next token is this one. -/
def sees (t : Token) : Reader Bool := do return (← peek) == some t

/-- Takes this token if it is the next one. -/
def accept (t : Token) : Reader Bool := do
  if ← sees t then
    let _ ← next
    return true
  else return false

/-- Takes this token, which must be the next one. -/
def expect (t : Token) : Reader Unit := do if !(← accept t) then failure

def punctuator (c : Char) : Token := .punctuator c

def name : Reader String := do
  match ← next with
  | .name word => return word
  | _ => failure

/-- Takes a name if one comes next. -/
def name? : Reader (Option String) := do
  match ← peek with
  | some (.name word) =>
    let _ ← next
    return some word
  | _ => return none

/-- Takes items as long as the next token begins one. -/
def manyWith {α : Type} (begins : Token → Bool) (item : Reader α) : Nat → Reader (List α)
  | 0 => return []
  | fuel + 1 => do
    match ← peek with
    | some t =>
      if begins t then
        let first ← item
        return first :: (← manyWith begins item fuel)
      else return []
    | none => return []

/-- Takes items as long as the next token begins one; every item takes a token. -/
def many {α : Type} (begins : Token → Bool) (item : Reader α) : Reader (List α) := do
  manyWith begins item (← get).length

/-- Items between two punctuators, anything up to the closing one. -/
def between {α : Type} (opening closing : Char) (item : Reader α) : Reader (List α) := do
  expect (punctuator opening)
  let items ← many (· != punctuator closing) item
  expect (punctuator closing)
  return items

/-- At least one item between two punctuators. -/
def oneOrMoreBetween {α : Type} (opening closing : Char) (item : Reader α) : Reader (List α) := do
  let items ← between opening closing item
  if items.isEmpty then failure
  return items

/-- The same if the opening punctuator is the next token, and nothing otherwise. -/
def optionalBetween {α : Type} (opening closing : Char) (item : Reader α) : Reader (List α) := do
  if ← sees (punctuator opening) then oneOrMoreBetween opening closing item else return []

/-- One or more items with a punctuator between them and perhaps before the first. -/
def separatedBy {α : Type} (separator : Char) (item : Reader α) : Reader (List α) := do
  let _ ← accept (punctuator separator)
  let first ← item
  let others ← many (· == punctuator separator) do
    expect (punctuator separator)
    item
  return first :: others

/-- A description, which says nothing about the schema. -/
def description : Reader Bool := do
  match ← peek with
  | some (.string _) =>
    let _ ← next
    return true
  | _ => return false

/-! ## Types and values -/

/-- How many levels lists and objects may be nested. -/
def maxNesting : Nat := 500

/-- A type reference, inside fewer lists than the fuel. -/
def typeWith : Nat → Reader FieldType
  | 0 => failure
  | fuel + 1 => do
    let base ← match ← next with
      | .name word => pure (FieldType.ofName word)
      | .punctuator '[' => do
        let item ← typeWith fuel
        expect (punctuator ']')
        pure (FieldType.list item)
      | _ => failure
    if ← accept (punctuator '!') then return .nonNull base else return base

def type : Reader FieldType := typeWith (maxNesting + 1)

/-- What a name stands for, given the value behind its colon: nothing if there is no colon. -/
def entry (value : Reader Constant) : Reader (Option (String × Constant)) := do
  let key ← name
  if ← accept (punctuator ':') then return some (key, ← value) else return none

/-- A constant, inside fewer lists and objects than the fuel. A variable is none. -/
def valueWith : Nat → Reader Constant
  | 0 => failure
  | fuel + 1 => do
    match ← next with
    | .int i => return .int i
    | .float negative coefficient exponent => return .float negative coefficient exponent
    | .string s => return .string s
    | .name "true" => return .boolean true
    | .name "false" => return .boolean false
    | .name "null" => return .null
    | .name word => return .enum word
    | .punctuator '[' =>
      let items ← many (· != punctuator ']') (valueWith fuel)
      expect (punctuator ']')
      return .list items
    | .punctuator '{' =>
      let entries ← many (· != punctuator '}') (entry (valueWith fuel))
      expect (punctuator '}')
      return .object (entries.filterMap id)
    | _ => failure

def value : Reader Constant := valueWith (maxNesting + 1)

def directiveUse : Reader DirectiveUse := do
  expect (punctuator '@')
  return ⟨← name, (← optionalBetween '(' ')' (entry value)).filterMap id⟩

def directives : Reader (List DirectiveUse) := many (· == punctuator '@') directiveUse

/-! ## Parts of definitions -/

def inputValue : Reader InputValue := do
  let _ ← description
  let name ← name
  expect (punctuator ':')
  let type ← type
  let defaultValue ← if ← accept (punctuator '=') then some <$> value else pure none
  return ⟨name, type, defaultValue, ← directives⟩

def argumentsDefinition : Reader (List InputValue) := optionalBetween '(' ')' inputValue

def field : Reader FieldItem := do
  let _ ← description
  let name ← name
  let arguments ← argumentsDefinition
  expect (punctuator ':')
  let type ← type
  return ⟨name, arguments, type, ← directives⟩

/-- Words that are values of their own and no enum values. -/
def reservedValues : List String := ["true", "false", "null"]

def enumItem : Reader EnumItem := do
  let _ ← description
  let name ← name
  if reservedValues.contains name then failure
  return ⟨name, ← directives⟩

def implements : Reader (List String) := do
  if ← accept (.name "implements") then separatedBy '&' name else return []

/-- A root operation, unless its type is missing. -/
def root : Reader (Option (RootKind × String)) := do
  let kind ← match ← name with
    | "query" => pure .query
    | "mutation" => pure .mutation
    | "subscription" => pure .subscription
    | _ => failure
  expect (punctuator ':')
  return (← name?).map fun type => (kind, type)

def directiveLocation : Reader String := do
  let word ← name
  if directiveLocations.contains word then return word else failure

/-! ## Definitions -/

/-- What follows the name of a type. -/
def typeBody (kind : TypeKind) (name : String) : Reader TypeItem := do
  let interfaces ← match kind with
    | .object | .interface => implements
    | _ => pure []
  let directives ← directives
  match kind with
  | .scalar => return { kind, name, directives }
  | .object | .interface =>
    return { kind, name, directives, implements := interfaces
             fields := ← optionalBetween '{' '}' field }
  | .union =>
    let members ← if ← accept (punctuator '=') then separatedBy '|' Reader.name else pure []
    return { kind, name, directives, members }
  | .enum => return { kind, name, directives, values := ← optionalBetween '{' '}' enumItem }
  | .input => return { kind, name, directives, inputs := ← optionalBetween '{' '}' inputValue }

/-- Whether a token behind the name of a type begins something that an extension can add. -/
def beginsAddition (kind : TypeKind) (t : Token) : Bool :=
  t == punctuator '@' ||
    match kind with
    | .scalar => false
    | .object | .interface => t == .name "implements" || t == punctuator '{'
    | .union => t == punctuator '='
    | .enum | .input => t == punctuator '{'

/-- A type extension after the word for its kind: it adds something. -/
def typeExtension (kind : TypeKind) : Reader TypeItem := do
  let name ← name
  match ← peek with
  | some t => if beginsAddition kind t then typeBody kind name else failure
  | none => failure

def directiveDefinition : Reader DirectiveItem := do
  expect (punctuator '@')
  let name ← name
  let arguments ← argumentsDefinition
  let repeatable ← accept (.name "repeatable")
  expect (.name "on")
  return ⟨name, arguments, repeatable, ← separatedBy '|' directiveLocation⟩

/-- A schema after its first word. -/
def schemaDefinition : Reader SchemaItem := do
  let directives ← directives
  return ⟨directives, (← optionalBetween '{' '}' root).filterMap id⟩

/-- A schema extension after the word for it: it has a directive or begins a root operation. -/
def schemaExtension : Reader SchemaItem := do
  let directives ← directives
  let roots ← if ← sees (punctuator '{') then between '{' '}' root else pure []
  if directives.isEmpty && roots.isEmpty then failure
  return ⟨directives, roots.filterMap id⟩

/-- An extension after its first word. -/
def extensionDefinition : Reader Definition := do
  let word ← name
  if word = "schema" then return .schemaExtension (← schemaExtension)
  match TypeKind.ofKeyword? word with
  | some kind => return .typeExtension (← typeExtension kind)
  | none => failure

/-- A definition.  Extensions have no description, and operations are no definitions.  No comma
    stands behind a description or behind the first word of an extension. -/
def definition : Reader Definition := do
  let described ← description
  if described then noComma
  match ← name with
  | "schema" => return .schema (← schemaDefinition)
  | "directive" => return .directive (← directiveDefinition)
  | "extend" =>
    if described then failure
    noComma
    extensionDefinition
  | word =>
    match TypeKind.ofKeyword? word with
    | some kind => return .type (← typeBody kind (← name))
    | none => failure

/-- The definitions of a text, at least one. -/
def document : Reader (List Definition) := do
  let definitions ← many (fun _ => true) definition
  if definitions.isEmpty then failure
  return definitions

end Reader

/-- The definitions of a text. -/
def definitions? (text : String) : Option (List Definition) := do
  let tokens ← tokens? text.toList
  let (definitions, rest) ← Reader.document tokens
  if rest.isEmpty then some definitions else none

end QueryShapes.Sdl
