/-
  Validation: the rules that the types of a text have to keep.

  Every rule is a test; a text is valid if all tests hold.
-/
import QueryShapes.Schema.Sdl.Admission
import QueryShapes.Schema.Sdl.Assembly
import QueryShapes.Schema.Sdl.Dependence

namespace QueryShapes.Sdl

/-- Names that begin with two underscores are kept for introspection. -/
def isFree (name : String) : Bool := name.toList.take 2 != ['_', '_']

/-! ## Directives -/

/-- Whether the arguments of a use fit the directive: all declared, none twice, every value
    admitted, every required one there and not null. -/
def argumentsFit (s : TypeSystem) (d : DirectiveItem) (use : DirectiveUse) : Bool :=
  allDifferent (use.arguments.map (·.1)) &&
    use.arguments.all (fun given => d.arguments.any fun a =>
      a.name == given.1 && s.admits a.type given.2) &&
    hasRequired d.arguments use.arguments

/-- Whether directives may stand together at a place. -/
def directivesFit (s : TypeSystem) (location : String) (uses : List DirectiveUse) : Bool :=
  uses.all (fun use => match s.directives.get? use.name with
    | some d => d.locations.contains location && argumentsFit s d use
    | none => false) &&
  allDifferent ((uses.map (·.name)).filter fun name => match s.directives.get? name with
    | some d => !d.repeatable
    | none => false)

/-- Whether arguments or input fields are well defined. -/
def inputsFit (s : TypeSystem) (location : String) (inputs : List InputValue) : Bool :=
  allDifferent (inputs.map (·.name)) &&
    inputs.all fun v => isFree v.name && s.isInput v.type && directivesFit s location v.directives

/-- Whether a directive is well defined. -/
def directiveFits (s : TypeSystem) (d : DirectiveItem) : Bool :=
  isFree d.name && inputsFit s "ARGUMENT_DEFINITION" d.arguments &&
    isGrounded s.references (.directive d.name)

/-! ## Fields and interfaces -/

/-- Whether fields are well defined. -/
def fieldsFit (s : TypeSystem) (fields : List FieldItem) : Bool :=
  !fields.isEmpty && fields.all fun f =>
    isFree f.name && s.isOutput f.type && inputsFit s "ARGUMENT_DEFINITION" f.arguments &&
      directivesFit s "FIELD_DEFINITION" f.directives

/-- Whether a field of the first type can stand where one of the second is promised: it may
    exclude null, and be of a narrower type. -/
def covers (s : TypeSystem) : FieldType → FieldType → Bool
  | .nonNull type, .nonNull promised => covers s type promised
  | .nonNull type, promised => covers s type promised
  | _, .nonNull _ => false
  | .list item, .list promised => covers s item promised
  | .list _, _ | _, .list _ => false
  | type, promised => s.isSubtype type.innerName promised.innerName

/-- Whether a field keeps the promise of an interface field: it covers its type, has all its
    arguments with the same types, and requires no others. -/
def fieldKeeps (s : TypeSystem) (field promised : FieldItem) : Bool :=
  covers s field.type promised.type &&
    promised.arguments.all (fun p => field.arguments.any fun a =>
      a.name == p.name && a.type == p.type) &&
    field.arguments.all fun a => !a.isRequired || promised.arguments.any (·.name == a.name)

/-- Whether a type keeps the promise of an interface: it has its fields and names the interfaces
    that it implements. -/
def implementsFits (s : TypeSystem) (t : TypeItem) (interface : String) : Bool :=
  match s.types.get? interface with
  | some i =>
    i.kind == .interface && interface != t.name && i.implements.all t.implements.contains &&
      i.fields.all fun promised => match t.fields.find? (·.name == promised.name) with
        | some field => fieldKeeps s field promised
        | none => false
  | none => false

/-! ## Types -/

/-- Whether the parts of a type are well defined. -/
def partsFit (s : TypeSystem) (t : TypeItem) : Bool :=
  match t.kind with
  | .scalar => true
  | .object | .interface => fieldsFit s t.fields && t.implements.all (implementsFits s t)
  | .union => !t.members.isEmpty && t.members.all (s.isOfKind .object)
  | .enum =>
    !t.values.isEmpty && t.values.all fun v =>
      isFree v.name && directivesFit s "ENUM_VALUE" v.directives
  | .input =>
    !t.inputs.isEmpty && inputsFit s "INPUT_FIELD_DEFINITION" t.inputs &&
      isGrounded s.neededInputs (.type t.name)

/-- Whether a type is well defined.  Given types have names of their own, and what stands on
    a given scalar is not looked at. -/
def typeFits (s : TypeSystem) (t : TypeItem) : Bool :=
  if isGiven t.name && t.kind == .scalar then true
  else
    (isFree t.name || isGiven t.name) && directivesFit s t.kind.location t.directives &&
      partsFit s t

/-! ## The schema -/

/-- Whether the schema is well defined: there is a query root, and the roots are different object
    types. -/
def schemaFits (s : TypeSystem) : Bool :=
  (s.root? .query).isSome && directivesFit s "SCHEMA" s.schema.directives &&
    s.schema.roots.all (s.isOfKind .object ·.2) && allDifferent (s.schema.roots.map (·.2))

/-- Checks all rules. -/
def validate (s : TypeSystem) : Except SchemaError Unit := do
  if !schemaFits s then throw (.validation "the schema is not well defined")
  if let some d := s.directives.values.find? (!directiveFits s ·) then
    throw (.validation ("the directive " ++ d.name ++ " is not well defined"))
  if let some t := s.types.values.find? (!typeFits s ·) then
    throw (.validation ("the type " ++ t.name ++ " is not well defined"))

end QueryShapes.Sdl
