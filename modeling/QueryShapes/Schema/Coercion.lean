/-
  Coercion: which variable values and which constants a type admits.

  `acceptsValue` is for values that arrive as JSON, `acceptsLiteral` for
  constants written into a document.  A single value stands for a list of one.
-/
import QueryShapes.Name
import QueryShapes.Schema.Basic

namespace QueryShapes.Schema

/-! ## Variable values -/

mutual

/-- Whether a variable of the type may be given the value. -/
def acceptsValue (s : Schema) (type : FieldType) (value : Json) : Bool :=
  match type, value with
  | .nonNull inner, v => !v.isNull && s.acceptsValue inner v
  | _, .null => true
  | .list item, .arr items => s.acceptsItems item items
  | .list item, v => s.acceptsValue item v
  | .string, v => v.str?.isSome
  | .int, v => v.isInt32
  | .float, v => v.isNumber
  | .id, v => v.str?.isSome || v.isInt32
  | .boolean, v => v.bool?.isSome
  | .named name, v =>
    match s.type? name with
    | some (.scalar _) => true
    | some (.enum _ values) =>
      match v with
      | .str word => values.contains word
      | _ => false
    | some (.inputObject _ fields) =>
      match v with
      | .obj members => s.acceptsMembers members fields
      | _ => false
    | _ => false
termination_by (sizeOf value, sizeOf type)

/-- Whether the type admits every item. -/
def acceptsItems (s : Schema) (type : FieldType) (items : List Json) : Bool :=
  match items with
  | [] => true
  | v :: rest => s.acceptsValue type v && s.acceptsItems type rest
termination_by (sizeOf items, 0)

/-- Whether the members hold a fitting value for every declared field that they have, and have
    every required one.  Members that are no field are not looked at. -/
def acceptsMembers (s : Schema) (members : Json.Object) (fields : List ArgumentDefinition) : Bool :=
  match fields with
  | [] => true
  | f :: rest =>
    (match _h : members.get? f.name with
      | some v => s.acceptsValue f.type v
      | none => !f.isRequired) && s.acceptsMembers members rest
termination_by (sizeOf members, sizeOf fields)
decreasing_by
  · exact Prod.Lex.left _ _ (Json.sizeOf_get?_lt _h)
  · exact Prod.Lex.right _ (by simp only [List.cons.sizeOf_spec]; omega)

end

/-! ## Constants -/

mutual

/-- Whether a constant can be written down: its floats are finite, its enum values and object
    keys are names. -/
def wellFormed : Literal → Bool
  | .float x => x.isFinite
  | .enum name => Name.isValid name
  | .list items => wellFormedItems items
  | .object entries => wellFormedEntries entries
  | _ => true

def wellFormedItems : List Literal → Bool
  | [] => true
  | v :: rest => wellFormed v && wellFormedItems rest

def wellFormedEntries : List (String × Literal) → Bool
  | [] => true
  | (k, v) :: rest => Name.isValid k && wellFormed v && wellFormedEntries rest

end

/-- Integers that the built-in integer type admits. -/
def isInt32 (i : Int64) : Bool := -0x80000000 ≤ i.toInt && i.toInt < 0x80000000

mutual

/-- Whether an argument of the type may be given the constant. -/
def acceptsLiteral (s : Schema) (type : FieldType) (literal : Literal) : Bool :=
  match type, literal with
  | .nonNull _, .null => false
  | .nonNull inner, l => s.acceptsLiteral inner l
  | _, .null => true
  | .string, .string _ => true
  | .int, .int i => isInt32 i
  | .float, .int _ => true
  | .float, .float x => x.isFinite
  | .id, .string _ => true
  | .id, .int _ => true
  | .boolean, .boolean _ => true
  | .list item, .list items => s.acceptsLiterals item items
  | .list item, l => s.acceptsLiteral item l
  | .named name, l =>
    match s.type? name with
    | some (.scalar _) => wellFormed l
    | some (.enum _ values) =>
      match l with
      | .enum word => values.contains word
      | _ => false
    | some (.inputObject _ fields) =>
      match l with
      | .object entries =>
        entries.all (fun e => fields.any fun f => f.name == e.1) &&
          s.acceptsEntries entries fields
      | _ => false
    | _ => false
  | _, _ => false
termination_by (sizeOf literal, sizeOf type)

/-- Whether the type admits every item. -/
def acceptsLiterals (s : Schema) (type : FieldType) (items : List Literal) : Bool :=
  match items with
  | [] => true
  | l :: rest => s.acceptsLiteral type l && s.acceptsLiterals type rest
termination_by (sizeOf items, 0)

/-- Whether the entries hold a fitting constant for every declared field that they have, and
    have every required one. -/
def acceptsEntries (s : Schema) (entries : Entries Literal) (fields : List ArgumentDefinition) :
    Bool :=
  match fields with
  | [] => true
  | f :: rest =>
    (match _h : entries.get? f.name with
      | some l => s.acceptsLiteral f.type l
      | none => !f.isRequired) && s.acceptsEntries entries rest
termination_by (sizeOf entries, sizeOf fields)
decreasing_by
  · exact Prod.Lex.left _ _ (Literal.sizeOf_get?_lt _h)
  · exact Prod.Lex.right _ (by simp only [List.cons.sizeOf_spec]; omega)

end

end QueryShapes.Schema
