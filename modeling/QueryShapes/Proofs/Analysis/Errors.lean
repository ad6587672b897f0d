/-
  Which errors the single checks of analysis report.

  Every check but that of the depth looks at the head of an operation, at one
  member or at the fields of one list.  None of them reports that a shape is too
  deep, or that a stage behind analysis was left with something open.  The depth
  is checked where members are resolved, between the checks of the head and of
  the fields (`analyze_eq`).
-/
import QueryShapes.Analysis.Basic
import QueryShapes.Proofs.Except

namespace QueryShapes

/-- The errors that no single member is the cause of: that of the depth, and those of the stages
    behind analysis. -/
def CompileError.IsBeyondMembers : CompileError → Prop
  | .recursionLimitExceeded _ | .unresolvedArgument _ _ | .unresolvedFragment _ => True
  | _ => False

/-- A check that finds fault with members only. -/
abbrev ChecksMembers {α : Type} (x : Except CompileError α) : Prop :=
  Avoids CompileError.IsBeyondMembers x

namespace Analysis

theorem checkName_checks (name : String) : ChecksMembers (checkName name) := by
  unfold checkName
  split
  · exact .ok _
  · exact .error not_false

theorem checkParameters_checks (declared parameters : List String) :
    ChecksMembers (checkParameters declared parameters) := by
  induction parameters generalizing declared with
  | nil => exact .ok _
  | cons parameter rest ih =>
    rw [checkParameters]
    refine Avoids.bind (checkName_checks _) fun _ _ => ?_
    exact .check not_false (ih _)

/-! ## Arguments -/

theorem supplyNamed_checks (coordinate : String) (definition : FieldDefinition)
    (supplied : Supplied) (named : List (String × ArgumentInput)) :
    ChecksMembers (supplyNamed coordinate definition supplied named) := by
  induction named generalizing supplied with
  | nil => exact .ok _
  | cons p rest ih =>
    rw [supplyNamed]
    split
    · exact .error not_false
    · split
      · exact .error not_false
      · exact ih _

theorem bindArgument_checks (schema : Schema) (parameters : List String) (coordinate : String)
    (supplied : Supplied) (argument : ArgumentDefinition) :
    ChecksMembers (bindArgument schema parameters coordinate supplied argument) := by
  unfold bindArgument
  dsimp only
  split
  · split
    · exact .ok _
    · exact .error not_false
  · split
    · exact .ok _
    · exact .error not_false
  · split
    · exact .error not_false
    · exact .ok _

theorem bindEach_checks (schema : Schema) (parameters : List String) (coordinate : String)
    (supplied : Supplied) (arguments : List ArgumentDefinition) :
    ChecksMembers (bindEach schema parameters coordinate supplied arguments) := by
  induction arguments with
  | nil => exact .ok _
  | cons argument rest ih =>
    rw [bindEach]
    exact Avoids.bind (bindArgument_checks _ _ _ _ _) fun _ _ => Avoids.bind ih fun _ _ => .ok _

theorem bindArguments_checks (schema : Schema) (parameters : List String) (coordinate : String)
    (definition : FieldDefinition) (positional : List ArgumentInput)
    (named : List (String × ArgumentInput)) :
    ChecksMembers (bindArguments schema parameters coordinate definition positional named) := by
  unfold bindArguments
  split
  · exact .error not_false
  · exact Avoids.bind (supplyNamed_checks _ _ _ _) fun _ _ =>
      bindEach_checks _ _ _ _ _

/-! ## Members -/

namespace Resolver

variable (r : Resolver) (parent : String)

theorem metaField_checks (request : FieldRequest) (hasSelection : Bool) :
    ChecksMembers (metaField parent request hasSelection) := by
  unfold metaField
  dsimp only
  split
  · exact .error not_false
  · split
    · exact .error not_false
    · exact .error not_false
    · exact .ok _

theorem declaredField_checks (request : FieldRequest) (hasSelection isEmpty : Bool) :
    ChecksMembers (r.declaredField parent request hasSelection isEmpty) := by
  unfold declaredField
  split
  · exact .error not_false
  · refine Avoids.bind (bindArguments_checks _ _ _ _ _ _) fun _ _ => ?_
    exact .check not_false (.check not_false (.ok _))

theorem field_checks (request : FieldRequest) (hasSelection isEmpty : Bool) :
    ChecksMembers (r.field parent request hasSelection isEmpty) := by
  have hrest : ChecksMembers (if request.name = Name.typename then
      metaField parent request hasSelection
      else r.declaredField parent request hasSelection isEmpty) := by
    split
    · exact metaField_checks parent request hasSelection
    · exact r.declaredField_checks parent request hasSelection isEmpty
  unfold field
  dsimp only
  split
  · exact Avoids.bind (checkName_checks _) fun _ _ => hrest
  · exact hrest

theorem checkFragment_checks (fragment : FragmentHead) (isEmpty : Bool) :
    ChecksMembers (r.checkFragment parent fragment isEmpty) := by
  have hrest : ChecksMembers (do
      if !r.schema.isComposite fragment.onType then throw (CompileError.unknownType fragment.onType)
      if isEmpty then
        throw (CompileError.missingSubselection (fragment.name.getD "") fragment.onType)
      if !r.schema.typesOverlap parent fragment.onType then
        throw (CompileError.invalidFragmentTarget fragment.onType parent)) := by
    refine .check not_false (.check not_false ?_)
    split
    · exact .error not_false
    · exact .ok _
  unfold checkFragment
  dsimp only
  split
  · exact Avoids.bind (checkName_checks _) fun _ _ => hrest
  · exact hrest

theorem checkCondition_checks (condition : String) (isEmpty : Bool) :
    ChecksMembers (r.checkCondition parent condition isEmpty) := by
  unfold checkCondition
  refine .check not_false (.check not_false ?_)
  split
  · exact .error not_false
  · exact .ok _

theorem takeKey_checks (taken : List String) (s : Selection) :
    ChecksMembers (takeKey parent taken s) := by
  cases s with
  | field f subs =>
    rw [takeKey]
    split
    · exact .error not_false
    · exact .ok _
  | spread name condition => exact .ok _
  | inline condition subs => exact .ok _
  | marker name condition subs => exact .ok _

end Resolver

/-! ## Whole operations -/

theorem checkMerging_checks (parent : String) (fields : List CollectedField) :
    ChecksMembers (checkMerging parent fields) := by
  fun_induction checkMerging parent fields with
  | case1 parent => exact .ok _
  | case2 => exact .error not_false
  | case3 parent f subs rest same proceed hany hbelow hrest =>
    exact Avoids.bind hbelow fun _ _ => hrest

/-- The root type of an operation with a head in order and at least one member. -/
def rootOf (schema : Schema) (shape : OperationShape) : Except CompileError String := do
  match schema.rootType? shape.kind with
  | none => throw (.unsupportedOperation shape.kind.keyword)
  | some root =>
    if let some name := shape.name then checkName name
    checkParameters [] shape.parameters
    if shape.members.isEmpty then throw (.missingSubselection shape.kind.keyword root)
    return root

/-- The operation of resolved members that merge. -/
def merged (shape : OperationShape) (root : String) (members : List Selection) :
    Except CompileError SelectionSet := do
  checkResponseKeys root (withTypename root members)
  return ⟨shape.kind, shape.name, root, withTypename root members⟩

/-- The limit is that of the resolution of the members, between checks that do without it. -/
theorem analyze_eq (schema : Schema) (shape : OperationShape) (limit : Nat) :
    analyze schema shape limit = (do
      let root ← rootOf schema shape
      let members ← Resolver.resolveMembers ⟨schema, shape.parameters, limit⟩ root 0 []
        shape.members
      merged shape root members) := by
  unfold analyze rootOf merged
  cases schema.rootType? shape.kind with
  | none => rfl
  | some root =>
    cases shape.name <;> cases shape.members.isEmpty <;>
      simp only [bind_assoc, pure_bind, if_true, if_false, Bool.false_eq_true]

theorem rootOf_checks (schema : Schema) (shape : OperationShape) :
    ChecksMembers (rootOf schema shape) := by
  unfold rootOf
  split
  · exact .error not_false
  · rename_i root hroot
    have hrest : ChecksMembers (do
        checkParameters [] shape.parameters
        if shape.members.isEmpty then
          throw (CompileError.missingSubselection shape.kind.keyword root)
        return root) :=
      Avoids.bind (checkParameters_checks _ _) fun _ _ => .check not_false (.ok _)
    dsimp only
    split
    · exact Avoids.bind (checkName_checks _) fun _ _ => hrest
    · exact hrest

theorem merged_checks (shape : OperationShape) (root : String) (members : List Selection) :
    ChecksMembers (merged shape root members) :=
  Avoids.bind (checkMerging_checks _ _) fun _ _ => .ok _

end Analysis

end QueryShapes
