/-
  The grammar of executable documents.

  A relation for each nonterminal says which tokens derive which part of a
  document, one rule for each production: optional parts are absent or present,
  lists in parentheses and braces are not empty, constants hold no variables, a
  fragment is not named `on`, and an enum value is not spelled like another
  constant.  All that the language has is here, also what a synthesized document
  never holds: directives, default values, subscriptions and the short form of a
  query.
-/
import QueryShapes.FieldType
import QueryShapes.Number.Double
import QueryShapes.Schema.Sdl.Token

namespace QueryShapes.Executable

open Sdl (Token)

/-! ## Documents -/

/-- A value as it is written. -/
inductive Value where
  | var (name : String)
  | int (value : Int)
  | float (value : Double)
  | string (value : String)
  | boolean (value : Bool)
  | null
  | enum (name : String)
  | list (items : List Value)
  | object (entries : List (String × Value))
deriving Inhabited

/-- Arguments by name, in order. -/
abbrev Arguments := List (String × Value)

structure Directive where
  name : String
  arguments : Arguments
deriving Inhabited

/-- A selection; a field without a selection set has no selections. -/
inductive Selection where
  | field (aliasName : Option String) (name : String) (arguments : Arguments)
    (directives : List Directive) (selections : List Selection)
  | spread (name : String) (directives : List Directive)
  | inline (condition : Option String) (directives : List Directive)
    (selections : List Selection)
deriving Inhabited

structure VariableDefinition where
  name : String
  type : FieldType
  defaultValue : Option Value
  directives : List Directive
deriving Inhabited

inductive OperationType where
  | query
  | mutation
  | subscription
deriving DecidableEq, Repr, Inhabited

def OperationType.keyword : OperationType → String
  | query => "query"
  | mutation => "mutation"
  | subscription => "subscription"

inductive Definition where
  | operation (type : OperationType) (name : Option String)
    (parameters : List VariableDefinition) (directives : List Directive)
    (selections : List Selection)
  | fragment (name condition : String) (directives : List Directive)
    (selections : List Selection)
deriving Inhabited

abbrev Document := List Definition

/-! ## Values -/

/-- Constants that are spelled like names and are no enum values. -/
def reserved : List String := ["true", "false", "null"]

/-- A name with a colon and a value behind it: an argument, or an entry of an object. -/
def entryTokens (e : String × List Token × Value) : List Token :=
  .name e.1 :: .punctuator ':' :: e.2.1

def entryValue (e : String × List Token × Value) : String × Value := (e.1, e.2.2)

/-- The tokens of a value; one that is constant holds no variables. -/
inductive DerivesValue (constant : Bool) : List Token → Value → Prop
  | var (hc : constant = false) (name : String) :
      DerivesValue constant [.punctuator '$', .name name] (.var name)
  | int (i : Int) : DerivesValue constant [.int i] (.int i)
  | float (negative : Bool) (coefficient : Nat) (exponent : Int) :
      DerivesValue constant [.float negative coefficient exponent]
        (.float (Double.ofDecimal negative coefficient exponent))
  | string (s : String) : DerivesValue constant [.string s] (.string s)
  | booleanTrue : DerivesValue constant [.name "true"] (.boolean true)
  | booleanFalse : DerivesValue constant [.name "false"] (.boolean false)
  | null : DerivesValue constant [.name "null"] .null
  | enum {name : String} (h : name ∉ reserved) : DerivesValue constant [.name name] (.enum name)
  | list {items : List (List Token × Value)} (h : ∀ p ∈ items, DerivesValue constant p.1 p.2) :
      DerivesValue constant
        (.punctuator '[' :: (items.flatMap Prod.fst ++ [Token.punctuator ']']))
        (.list (items.map Prod.snd))
  | object {entries : List (String × List Token × Value)}
      (h : ∀ e ∈ entries, DerivesValue constant e.2.1 e.2.2) :
      DerivesValue constant
        (.punctuator '{' :: (entries.flatMap entryTokens ++ [Token.punctuator '}']))
        (.object (entries.map entryValue))

/-- The tokens of optional arguments. -/
inductive DerivesArguments (constant : Bool) : List Token → Arguments → Prop
  | absent : DerivesArguments constant [] []
  | present {entries : List (String × List Token × Value)} (hne : entries ≠ [])
      (h : ∀ e ∈ entries, DerivesValue constant e.2.1 e.2.2) :
      DerivesArguments constant
        (.punctuator '(' :: (entries.flatMap entryTokens ++ [Token.punctuator ')']))
        (entries.map entryValue)

/-- The tokens of optional directives. -/
inductive DerivesDirectives (constant : Bool) : List Token → List Directive → Prop
  | nil : DerivesDirectives constant [] []
  | cons {name : String} {as ts : List Token} {arguments : Arguments}
      {directives : List Directive} (ha : DerivesArguments constant as arguments)
      (h : DerivesDirectives constant ts directives) :
      DerivesDirectives constant (.punctuator '@' :: .name name :: (as ++ ts))
        (⟨name, arguments⟩ :: directives)

/-! ## Types and variables -/

/-- The tokens of a type; a mark stands behind a type that has none yet. -/
inductive DerivesType : List Token → FieldType → Prop
  | named (name : String) : DerivesType [.name name] (FieldType.ofName name)
  | list {ts : List Token} {item : FieldType} (h : DerivesType ts item) :
      DerivesType (.punctuator '[' :: (ts ++ [Token.punctuator ']'])) (.list item)
  | nonNull {ts : List Token} {inner : FieldType} (hn : inner.isNonNull = false)
      (h : DerivesType ts inner) :
      DerivesType (ts ++ [Token.punctuator '!']) (.nonNull inner)

/-- The tokens of an optional default value. -/
inductive DerivesDefault : List Token → Option Value → Prop
  | absent : DerivesDefault [] none
  | present {ts : List Token} {value : Value} (h : DerivesValue true ts value) :
      DerivesDefault (.punctuator '=' :: ts) (some value)

/-- The tokens of one variable definition. -/
inductive DerivesVariable : List Token → VariableDefinition → Prop
  | intro {name : String} {type : FieldType} {value : Option Value}
      {directives : List Directive} {ts vs ds : List Token} (ht : DerivesType ts type)
      (hv : DerivesDefault vs value) (hd : DerivesDirectives true ds directives) :
      DerivesVariable
        (.punctuator '$' :: .name name :: .punctuator ':' :: (ts ++ (vs ++ ds)))
        ⟨name, type, value, directives⟩

/-- The tokens of optional variable definitions. -/
inductive DerivesVariables : List Token → List VariableDefinition → Prop
  | absent : DerivesVariables [] []
  | present {definitions : List (List Token × VariableDefinition)} (hne : definitions ≠ [])
      (h : ∀ p ∈ definitions, DerivesVariable p.1 p.2) :
      DerivesVariables
        (.punctuator '(' :: (definitions.flatMap Prod.fst ++ [Token.punctuator ')']))
        (definitions.map Prod.snd)

/-! ## Selections -/

/-- The tokens of an optional alias. -/
def aliasTokens : Option String → List Token
  | none => []
  | some name => [.name name, .punctuator ':']

/-- The tokens of an optional type condition. -/
def conditionTokens : Option String → List Token
  | none => []
  | some condition => [.name "on", .name condition]

/-- Selections between braces. -/
def blockTokens (selections : List (List Token × Selection)) : List Token :=
  .punctuator '{' :: (selections.flatMap Prod.fst ++ [Token.punctuator '}'])

/-- The tokens of a selection. -/
inductive DerivesSelection : List Token → Selection → Prop
  | leaf {name : String} {as ds : List Token} {arguments : Arguments}
      {directives : List Directive} (aliasName : Option String)
      (ha : DerivesArguments false as arguments) (hd : DerivesDirectives false ds directives) :
      DerivesSelection (aliasTokens aliasName ++ .name name :: (as ++ ds))
        (.field aliasName name arguments directives [])
  | field {name : String} {as ds : List Token} {arguments : Arguments}
      {directives : List Directive} (aliasName : Option String)
      (ha : DerivesArguments false as arguments) (hd : DerivesDirectives false ds directives)
      {selections : List (List Token × Selection)} (hne : selections ≠ [])
      (h : ∀ p ∈ selections, DerivesSelection p.1 p.2) :
      DerivesSelection
        (aliasTokens aliasName ++ .name name :: (as ++ (ds ++ blockTokens selections)))
        (.field aliasName name arguments directives (selections.map Prod.snd))
  | spread {name : String} {ds : List Token} {directives : List Directive} (hn : name ≠ "on")
      (hd : DerivesDirectives false ds directives) :
      DerivesSelection (.spread :: .name name :: ds) (.spread name directives)
  | inline {ds : List Token} {directives : List Directive} (condition : Option String)
      (hd : DerivesDirectives false ds directives)
      {selections : List (List Token × Selection)} (hne : selections ≠ [])
      (h : ∀ p ∈ selections, DerivesSelection p.1 p.2) :
      DerivesSelection (.spread :: (conditionTokens condition ++ (ds ++ blockTokens selections)))
        (.inline condition directives (selections.map Prod.snd))

/-- The tokens of a selection set: selections between braces, of which there is one at least. -/
inductive DerivesBlock : List Token → List Selection → Prop
  | intro {selections : List (List Token × Selection)} (hne : selections ≠ [])
      (h : ∀ p ∈ selections, DerivesSelection p.1 p.2) :
      DerivesBlock (blockTokens selections) (selections.map Prod.snd)

/-! ## Definitions -/

/-- The tokens of an optional name. -/
def nameTokens : Option String → List Token
  | none => []
  | some name => [.name name]

/-- The tokens of a definition. -/
inductive DerivesDefinition : List Token → Definition → Prop
  | short {ss : List Token} {selections : List Selection} (hs : DerivesBlock ss selections) :
      DerivesDefinition ss (.operation .query none [] [] selections)
  | operation {vs ds ss : List Token} {parameters : List VariableDefinition}
      {directives : List Directive} {selections : List Selection} (type : OperationType)
      (name : Option String) (hv : DerivesVariables vs parameters)
      (hd : DerivesDirectives false ds directives) (hs : DerivesBlock ss selections) :
      DerivesDefinition
        (.name type.keyword :: (nameTokens name ++ (vs ++ (ds ++ ss))))
        (.operation type name parameters directives selections)
  | fragment {name : String} {ds ss : List Token} {directives : List Directive}
      {selections : List Selection} (hn : name ≠ "on") (condition : String)
      (hd : DerivesDirectives false ds directives) (hs : DerivesBlock ss selections) :
      DerivesDefinition
        (.name "fragment" :: .name name :: .name "on" :: .name condition :: (ds ++ ss))
        (.fragment name condition directives selections)

/-- The tokens of a document: definitions, of which there is one at least. -/
inductive DerivesDocument : List Token → Document → Prop
  | intro {definitions : List (List Token × Definition)} (hne : definitions ≠ [])
      (h : ∀ p ∈ definitions, DerivesDefinition p.1 p.2) :
      DerivesDocument (definitions.flatMap Prod.fst) (definitions.map Prod.snd)

end QueryShapes.Executable
