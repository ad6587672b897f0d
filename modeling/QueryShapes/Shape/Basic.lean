/-
  Shapes: what an operation selects, before any schema is consulted.

  A shape is a tree of members: fields with aliases and arguments, reusable
  fragments, and members narrowed to a type.  Operation parameters stand where
  values are known only at run time.
-/
import QueryShapes.Schema.Basic

namespace QueryShapes

/-- What a call supplies for an argument. -/
inductive ArgumentInput where
  | literal (value : Literal)
  | parameter (name : String)
deriving Inhabited

/-- A field of a shape without its sub-selection. -/
structure FieldRequest where
  name : String
  aliasName : Option String := none
  /-- Values for the first declared arguments. -/
  positional : List ArgumentInput := []
  /-- Values for arguments by name. -/
  named : List (String × ArgumentInput) := []
deriving Inhabited

/-- A reusable fragment without its members. -/
structure FragmentHead where
  name : Option String
  onType : String
deriving DecidableEq, Repr, Inhabited

/-- A member of a selection. -/
inductive Member where
  /-- A field with no sub-selection. -/
  | leaf (field : FieldRequest)
  /-- A field with a sub-selection of its own. -/
  | nested (field : FieldRequest) (members : List Member)
  /-- A field whose whole sub-selection is a fragment. -/
  | reusing (field : FieldRequest) (fragment : FragmentHead) (members : List Member)
  /-- A fragment beside other members. -/
  | spread (fragment : FragmentHead) (members : List Member)
  /-- Members for one type only. -/
  | narrowed (typeCondition : String) (members : List Member)
deriving Inhabited

/-- An operation to be compiled. -/
structure OperationShape where
  kind : OperationKind
  name : Option String := none
  parameters : List String := []
  members : List Member := []
deriving Inhabited

end QueryShapes
