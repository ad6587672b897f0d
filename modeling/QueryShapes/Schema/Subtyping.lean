/-
  Subtyping: which types stand below an abstract type, which object types a
  position can hold, and when two positions can hold a common one.

  A schema is not assumed to be valid: `implements` lists may form cycles or
  name types that are not defined.
-/
import QueryShapes.Reachability
import QueryShapes.Schema.Basic

namespace QueryShapes.Schema

/-- The types of a schema, each with the interfaces that it lists. -/
def implementsGraph (s : Schema) : NameGraph := ⟨s.types.keys, s.implementedBy⟩

/-- The interfaces that a type implements, itself or through one of them. -/
def supertypes (s : Schema) (name : String) : List String := s.implementsGraph.above name

/-- Whether a type stands below an abstract type: it implements the interface, or it or an
    interface of it is a member of the union. -/
def isSubtype (s : Schema) (abstractType maybeSub : String) : Bool :=
  let above := s.supertypes maybeSub
  above.contains abstractType ||
    (s.unionMembers abstractType).any fun member => member == maybeSub || above.contains member

/-- The names of the object types that a position of a type can hold, in schema order. -/
def possibleTypes (s : Schema) (name : String) : List String :=
  match s.type? name with
  | some (.object t) => [t.name]
  | some (.interface _) | some (.union _ _) =>
    (s.types.values.filterMap fun
      | .object t => if s.isSubtype name t.name then some t.name else none
      | _ => none).eraseDups
  | _ => []

/-- Whether positions of the two types can hold a common object type. -/
def typesOverlap (s : Schema) (parent condition : String) : Bool :=
  parent == condition ||
    (s.possibleTypes condition).any (s.possibleTypes parent).contains

end QueryShapes.Schema
