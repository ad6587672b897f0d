/-
  Nothing is left open in a document.

  A document is written exactly if every argument has a value that a document
  can hold, no marker is left and every spread has a definition
  (`checkResolved_eq_ok`, `checkResolved_of_resolved`).
-/
import QueryShapes.Compilation
import QueryShapes.Proofs.Except
import QueryShapes.Proofs.Lifting.Variables

namespace QueryShapes

open Selection

/-- An argument that is left to its default, or bound to a constant or a variable. -/
def FieldArgument.Resolved (a : FieldArgument) : Prop :=
  a.value = .default ∨ (∃ l, a.value = .literal l) ∨ ∃ v, a.value = .documentVariable v

/-- Nothing is left open in a list: its arguments are resolved, it has no markers, and what it
    spreads is defined. -/
structure Selection.Resolved (defined : List String) (selections : List Selection) : Prop where
  arguments : ∀ a ∈ allArguments selections, a.Resolved
  markers : allMarkers selections = []
  spreads : ∀ x ∈ allSpreads selections, x.1 ∈ defined

/-- Nothing is left open in an operation and its fragments. -/
structure CompiledQuery.Resolved (query : CompiledQuery) : Prop where
  selections : Selection.Resolved (query.fragments.map (·.name)) query.selectionSet.selections
  fragments : ∀ d ∈ query.fragments,
    Selection.Resolved (query.fragments.map (·.name)) d.selections

namespace Document

theorem resolved_of_unresolvedArgument? {as : List FieldArgument}
    (h : unresolvedArgument? as = none) : ∀ a ∈ as, a.Resolved := by
  intro a ha
  have hnone := List.find?_eq_none.mp h a ha
  unfold FieldArgument.Resolved
  cases hv : a.value <;> simp_all

theorem checkResolved_eq_ok {defined : List String} {selections : List Selection}
    (h : checkResolved defined selections = .ok ()) : Selection.Resolved defined selections := by
  induction selections using listInduction with
  | nil => exact ⟨by simp [allArguments, allFields], by simp [allMarkers], by simp [allSpreads]⟩
  | field f subs rest ihs ihr =>
    rw [checkResolved] at h
    cases hu : unresolvedArgument? f.arguments with
    | some a =>
      rw [hu] at h
      cases h
    | none =>
      rw [hu] at h
      simp only [bind_eq_ok] at h
      obtain ⟨⟨⟩, hs, hr⟩ := h
      have hs := ihs hs
      have hr := ihr hr
      refine ⟨?_, ?_, ?_⟩
      · rw [allArguments_field, List.forall_mem_append, List.forall_mem_append]
        exact ⟨resolved_of_unresolvedArgument? hu, hs.arguments, hr.arguments⟩
      · rw [allMarkers, hs.markers, hr.markers, List.append_nil]
      · rw [allSpreads, List.forall_mem_append]
        exact ⟨hs.spreads, hr.spreads⟩
  | spread name condition rest ihr =>
    rw [checkResolved] at h
    cases hc : defined.contains name with
    | false =>
      rw [hc] at h
      cases h
    | true =>
      rw [hc] at h
      have hr := ihr h
      refine ⟨?_, ?_, ?_⟩
      · rw [allArguments_spread]
        exact hr.arguments
      · rw [allMarkers, hr.markers]
      · rw [allSpreads, List.forall_mem_cons]
        exact ⟨List.contains_iff_mem.mp hc, hr.spreads⟩
  | inline condition subs rest ihs ihr =>
    rw [checkResolved] at h
    simp only [bind_eq_ok] at h
    obtain ⟨⟨⟩, hs, hr⟩ := h
    have hs := ihs hs
    have hr := ihr hr
    refine ⟨?_, ?_, ?_⟩
    · rw [allArguments_inline, List.forall_mem_append]
      exact ⟨hs.arguments, hr.arguments⟩
    · rw [allMarkers, hs.markers, hr.markers, List.append_nil]
    · rw [allSpreads, List.forall_mem_append]
      exact ⟨hs.spreads, hr.spreads⟩
  | marker name condition subs rest ihs ihr =>
    rw [checkResolved] at h
    cases h

theorem synthesize_eq_ok {set : SelectionSet} {fragments : List FragmentDefinition}
    {declarations : List VariableDeclaration} {pretty : Bool} {document : String}
    (h : synthesize set fragments declarations pretty = .ok document) :
    checkResolved (fragments.map (·.name)) set.selections = .ok () ∧
      (∀ d ∈ fragments, checkResolved (fragments.map (·.name)) d.selections = .ok ()) ∧
      document = render pretty (pieces set fragments declarations) := by
  unfold synthesize at h
  simp only [bind_eq_ok, pure_eq_ok] at h
  obtain ⟨⟨⟩, hset, ⟨⟩, hfragments, rfl⟩ := h
  exact ⟨hset, forM_eq_ok.mp hfragments, rfl⟩

theorem unresolvedArgument?_of_resolved {as : List FieldArgument} (h : ∀ a ∈ as, a.Resolved) :
    unresolvedArgument? as = none := by
  refine List.find?_eq_none.mpr fun a ha => ?_
  rcases h a ha with hv | ⟨l, hv⟩ | ⟨v, hv⟩ <;> simp [hv]

/-- A list in which nothing is open passes the check. -/
theorem checkResolved_of_resolved {defined : List String} {selections : List Selection}
    (h : Selection.Resolved defined selections) : checkResolved defined selections = .ok () := by
  obtain ⟨ha, hm, hs⟩ := h
  induction selections using listInduction with
  | nil => rw [checkResolved]
  | field f subs rest ihs ihr =>
    rw [allArguments_field, List.forall_mem_append, List.forall_mem_append] at ha
    rw [allMarkers, List.append_eq_nil_iff] at hm
    rw [allSpreads, List.forall_mem_append] at hs
    rw [checkResolved, unresolvedArgument?_of_resolved ha.1, ihs ha.2.1 hm.1 hs.1,
      ihr ha.2.2 hm.2 hs.2]
    rfl
  | spread name condition rest ihr =>
    rw [allArguments_spread] at ha
    rw [allMarkers] at hm
    rw [allSpreads, List.forall_mem_cons] at hs
    rw [checkResolved, List.contains_iff_mem.mpr hs.1, ihr ha hm hs.2]
    rfl
  | inline condition subs rest ihs ihr =>
    rw [allArguments_inline, List.forall_mem_append] at ha
    rw [allMarkers, List.append_eq_nil_iff] at hm
    rw [allSpreads, List.forall_mem_append] at hs
    rw [checkResolved, ihs ha.1 hm.1 hs.1, ihr ha.2 hm.2 hs.2]
    rfl
  | marker name condition subs rest _ _ => simp [allMarkers] at hm

/-- An operation in which nothing is open is written. -/
theorem synthesize_of_resolved {set : SelectionSet} {fragments : List FragmentDefinition}
    (hs : Selection.Resolved (fragments.map (·.name)) set.selections)
    (hf : ∀ d ∈ fragments, Selection.Resolved (fragments.map (·.name)) d.selections)
    (declarations : List VariableDeclaration) (pretty : Bool) :
    synthesize set fragments declarations pretty =
      .ok (render pretty (pieces set fragments declarations)) := by
  have hfragments : fragments.forM (fun fragment =>
      checkResolved (fragments.map (·.name)) fragment.selections) = .ok () :=
    forM_eq_ok.mpr fun d hd => checkResolved_of_resolved (hf d hd)
  unfold synthesize
  dsimp only
  rw [checkResolved_of_resolved hs, hfragments]
  rfl

end Document

/-- The document of a compiled operation is the text of its pieces, and nothing in them is left
    open. -/
theorem resolved_of_compile {schema : Schema} {settings : Settings} {shape : OperationShape}
    {query : CompiledQuery} (h : compile schema settings shape = .ok query) :
    query.Resolved ∧ query.document = Document.render settings.pretty
      (Document.pieces query.selectionSet query.fragments query.declarations) := by
  unfold compile at h
  simp only [bind_eq_ok, pure_eq_ok] at h
  obtain ⟨set, ha, ⟨extracted, fragments⟩, hx, document, hd, rfl⟩ := h
  obtain ⟨hset, hfragments, rfl⟩ := Document.synthesize_eq_ok hd
  exact ⟨⟨Document.checkResolved_eq_ok hset, fun d hd =>
    Document.checkResolved_eq_ok (hfragments d hd)⟩, rfl⟩

end QueryShapes
