/-
  Admission: which constants a directive argument may be given.

  Built-in scalars admit what their name says, a custom scalar admits anything.
  A list is admitted where the type is one, and a single value stands for a list
  of one.
-/
import QueryShapes.Schema.Sdl.TypeSystem

namespace QueryShapes.Sdl

/-- What an item of a list of this type is; the items of a type that is no list are of the type
    itself. -/
def itemType : FieldType → FieldType
  | .list item => item
  | .nonNull (.list item) => item
  | type => type

/-- Whether an integer fits a built-in scalar. -/
def scalarAdmitsInt (name : String) (i : Int) : Bool :=
  match name with
  | "ID" => true
  | "Int" => -0x80000000 ≤ i && i < 0x80000000
  | "Float" => (Double.ofInt i).isFinite
  | _ => false

/-- Whether a string fits a built-in scalar. -/
def scalarAdmitsString (name : String) : Bool := name == "String" || name == "ID"

/-- Whether every required field has an entry and none of its entries is null. -/
def hasRequired (fields : List InputValue) (entries : List (String × Constant)) : Bool :=
  fields.all fun f => !f.isRequired ||
    (entries.any (·.1 == f.name) && entries.all fun e => e.1 != f.name || !e.2.isNull)

namespace TypeSystem

mutual

/-- Whether an argument of the type may be given the constant. -/
def admits (s : TypeSystem) (type : FieldType) (constant : Constant) : Bool :=
  match s.inner? type with
  | none => false
  | some t =>
    match constant with
    | .null => !type.isNonNull
    | .int i => t.isCustomScalar || t.kind == .scalar && scalarAdmitsInt t.name i
    | .float negative coefficient exponent =>
      t.isCustomScalar ||
        t.name == "Float" && (Double.ofDecimal negative coefficient exponent).isFinite
    | .string _ => t.isCustomScalar || t.kind == .scalar && scalarAdmitsString t.name
    | .boolean _ => t.isCustomScalar || t.name == "Boolean"
    | .enum name => t.isCustomScalar || t.values.any (·.name == name)
    | .list items =>
      (t.isCustomScalar || type.isList && t.isInput) && s.admitsItems (itemType type) items
    | .object entries =>
      t.isCustomScalar || t.kind == .input && hasRequired t.inputs entries &&
        s.admitsEntries t.inputs [] entries

/-- Whether the type admits every item. -/
def admitsItems (s : TypeSystem) (type : FieldType) : List Constant → Bool
  | [] => true
  | c :: rest => s.admits type c && s.admitsItems type rest

/-- Whether every entry is that of an input field, and the first one of every key is admitted
    by the type of the field.  `seen` holds the keys before. -/
def admitsEntries (s : TypeSystem) (fields : List InputValue) (seen : List String) :
    List (String × Constant) → Bool
  | [] => true
  | (key, c) :: rest =>
    (match fields.find? (·.name == key) with
      | some f => seen.contains key || s.admits f.type c
      | none => false) && s.admitsEntries fields (key :: seen) rest

end

end TypeSystem

end QueryShapes.Sdl
