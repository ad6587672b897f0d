/-
  Merging: fields of one response key become one entry of the response, so they
  must be the same field with the same arguments, and what is selected below
  them is merged in turn.
-/
import QueryShapes.CompileError
import QueryShapes.Selection.Basic

namespace QueryShapes.Analysis

/-- A field with its sub-selections. -/
abbrev CollectedField := Field × List Selection

/-- The fields of a list in order, those of inline fragments and markers included. -/
def collectFields : List Selection → List CollectedField
  | [] => []
  | .field f subs :: rest => (f, subs) :: collectFields rest
  | .inline _ subs :: rest => collectFields subs ++ collectFields rest
  | .marker _ _ subs :: rest => collectFields subs ++ collectFields rest
  | .spread _ _ :: rest => collectFields rest

/-- Fields that cannot share a response key. -/
def conflicts (a b : Field) : Bool :=
  b.name != a.name || !FieldArgument.allEqv b.arguments a.arguments

/-- The fields under a response key. -/
def underKey (key : String) (fields : List CollectedField) : List CollectedField :=
  fields.filter (·.1.responseKey == key)

/-- The fields under all other response keys. -/
def notUnderKey (key : String) (fields : List CollectedField) : List CollectedField :=
  fields.filter (·.1.responseKey != key)

/-- What is selected below the fields, one list after the other. -/
def mergedSelections (fields : List CollectedField) : List Selection := fields.flatMap Prod.snd

/-! ## Size of a selection list -/

/-- The number of selections at all depths. -/
def nodes : List Selection → Nat
  | [] => 0
  | .field _ subs :: rest => 1 + nodes subs + nodes rest
  | .inline _ subs :: rest => 1 + nodes subs + nodes rest
  | .marker _ _ subs :: rest => 1 + nodes subs + nodes rest
  | .spread _ _ :: rest => 1 + nodes rest

theorem nodes_append (as bs : List Selection) : nodes (as ++ bs) = nodes as + nodes bs := by
  induction as with
  | nil => simp [nodes]
  | cons a as ih => cases a <;> simp [nodes, ih] <;> omega

/-- The number of fields and of selections below them. -/
def fieldNodes : List CollectedField → Nat
  | [] => 0
  | (_, subs) :: rest => 1 + nodes subs + fieldNodes rest

theorem fieldNodes_append (as bs : List CollectedField) :
    fieldNodes (as ++ bs) = fieldNodes as + fieldNodes bs := by
  induction as with
  | nil => simp [fieldNodes]
  | cons a as ih => simp [fieldNodes, ih]; omega

theorem fieldNodes_filter_le (p : CollectedField → Bool) (fields : List CollectedField) :
    fieldNodes (fields.filter p) ≤ fieldNodes fields := by
  induction fields with
  | nil => simp [fieldNodes]
  | cons a as ih =>
    cases h : p a <;> simp [fieldNodes, h] <;> omega

theorem nodes_mergedSelections_le (fields : List CollectedField) :
    nodes (mergedSelections fields) ≤ fieldNodes fields := by
  induction fields with
  | nil => simp [mergedSelections, fieldNodes, nodes]
  | cons a as ih =>
    simp only [mergedSelections] at ih
    simp [mergedSelections, fieldNodes, nodes_append]
    omega

theorem fieldNodes_collectFields_le (selections : List Selection) :
    fieldNodes (collectFields selections) ≤ nodes selections := by
  fun_induction collectFields selections with
  | case1 => simp [fieldNodes]
  | case2 f subs rest ih => simp [fieldNodes, nodes]; omega
  | case3 c subs rest ih₁ ih₂ => simp [fieldNodes_append, nodes]; omega
  | case4 n c subs rest ih₁ ih₂ => simp [fieldNodes_append, nodes]; omega
  | case5 n c rest ih => simp [nodes]; omega

/-! ## The check -/

/-- Checks the fields of a list on a type, group by group in order of first appearance: the
    later fields of a group against the first, then what is selected below the whole group. -/
def checkMerging (parent : String) : List CollectedField → Except CompileError Unit
  | [] => .ok ()
  | (f, subs) :: rest => do
    let same := underKey f.responseKey rest
    if same.any fun other => conflicts f other.1 then
      throw (.ambiguousSelection f.responseKey parent)
    checkMerging f.type.innerName (collectFields (subs ++ mergedSelections same))
    checkMerging parent (notUnderKey f.responseKey rest)
termination_by fields => fieldNodes fields
decreasing_by
  · have h₁ := fieldNodes_collectFields_le (subs ++ mergedSelections (underKey f.responseKey rest))
    have h₂ := nodes_mergedSelections_le (underKey f.responseKey rest)
    have h₃ : fieldNodes (underKey f.responseKey rest) ≤ fieldNodes rest :=
      fieldNodes_filter_le _ rest
    rw [nodes_append] at h₁
    simp only [fieldNodes]
    omega
  · have h : fieldNodes (notUnderKey f.responseKey rest) ≤ fieldNodes rest :=
      fieldNodes_filter_le _ rest
    simp only [fieldNodes]
    omega

/-- Checks that the fields of a selection list merge. -/
def checkResponseKeys (parent : String) (selections : List Selection) : Except CompileError Unit :=
  checkMerging parent (collectFields selections)

end QueryShapes.Analysis
