/-
  Dependence: what the definitions of types and directives use.

  A path follows what a definition uses, then what that uses, and so on.  The
  types on a path and the directives on it are bounded in number, each on their
  own.
-/
import QueryShapes.Schema.Sdl.TypeSystem

namespace QueryShapes.Sdl

/-- A type or a directive that is used. -/
inductive Reference where
  | type (name : String)
  | directive (name : String)
deriving DecidableEq, Repr, Inhabited

/-- Whether both are types or both are directives. -/
def Reference.sameKind : Reference → Reference → Bool
  | type _, type _ => true
  | directive _, directive _ => true
  | _, _ => false

/-- How many types a path may have, and how many directives. -/
def maxPath : Nat := 32

/-- Whether no continuation of a path from `root` comes back to it or has too many types or
    directives.  A continuation ends at what is on the path, and takes one unit of fuel for
    every step. -/
def pathsEnd (uses : Reference → List Reference) (root : Reference) :
    Nat → List Reference → Reference → Bool
  | 0, _, _ => false
  | fuel + 1, path, last =>
    (uses last).all fun r =>
      if path.contains r then r != root
      else path.countP r.sameKind < maxPath && pathsEnd uses root fuel (r :: path) r

/-- Whether all paths from a definition end without coming back to it. No path is longer than
    its types and directives together may be. -/
def isGrounded (uses : Reference → List Reference) (root : Reference) : Bool :=
  pathsEnd uses root (2 * maxPath) [root] root

/-! ## What definitions use -/

def directiveReferences (uses : List DirectiveUse) : List Reference :=
  uses.map fun use => .directive use.name

/-- What stands on a type and on its values. -/
def TypeItem.directiveReferences (t : TypeItem) : List Reference :=
  Sdl.directiveReferences (t.directives ++ t.values.flatMap (·.directives))

namespace TypeSystem

/-- An argument or input field uses the directives on it and its type.  A given type is no step
    of its own: what stands on it is used at once. -/
def inputReferences (s : TypeSystem) (v : InputValue) : List Reference :=
  directiveReferences v.directives ++
    if isGiven v.type.innerName then
      match s.inner? v.type with
      | some t => t.directiveReferences
      | none => []
    else [.type v.type.innerName]

/-- A directive uses what its arguments do, and a type what stands on it and on its values and
    what its input fields use. -/
def references (s : TypeSystem) : Reference → List Reference
  | .directive name =>
    match s.directives.get? name with
    | some d => d.arguments.flatMap s.inputReferences
    | none => []
  | .type name =>
    match s.types.get? name with
    | some t => t.directiveReferences ++ t.inputs.flatMap s.inputReferences
    | none => []

/-- The input objects that a value of an input object cannot be without. -/
def neededInputs (s : TypeSystem) : Reference → List Reference
  | .directive _ => []
  | .type name =>
    match s.types.get? name with
    | some t => t.inputs.filterMap fun v => match v.type with
      | .nonNull (.named other) => if s.isOfKind .input other then some (.type other) else none
      | _ => none
    | none => []

end TypeSystem

end QueryShapes.Sdl
