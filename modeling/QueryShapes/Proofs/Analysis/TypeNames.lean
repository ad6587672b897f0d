/-
  How a narrowed selection list asks for the concrete type.

  A list that holds a fragment on another type than its own needs the type of the
  object, which the response carries under the key of the meta field.  Every such
  list of an analyzed tree has a field of its own under this key, and all fields
  that are merged with it there have its name.  The field is the meta field unless
  the shape gives the key to another field as an alias: then the meta field is
  neither found nor added (`narrowed_list_typename`).
-/
import QueryShapes.Proofs.Analysis.Lists
import QueryShapes.Proofs.Analysis.Merging

namespace QueryShapes.Analysis

open Selection

/-- The list itself selects the meta field under its own name. -/
def SelectsTypename (list : List Selection) : Prop :=
  ∃ f subs, .field f subs ∈ list ∧ f.name = Name.typename ∧ f.responseKey = Name.typename

/-- In the list, and in the fragments merged into it, the meta field alone goes by its name. -/
def ReservesTypename (list : List Selection) : Prop :=
  ∀ p ∈ collectFields list, p.1.responseKey = Name.typename → p.1.name = Name.typename

/-- Another field of the list has the name of the meta field as its alias. -/
def MasksTypename (list : List Selection) : Prop :=
  ∃ f subs, .field f subs ∈ list ∧ f.aliasName = some Name.typename ∧ f.name ≠ Name.typename

/-! ## The key of the meta field -/

/-- A list with a fragment on another type has a field under the key of the meta field. -/
theorem hasKey_of_narrows {type : String} {selections : List Selection}
    (h : (withTypename type selections).any (Narrows type) = true) :
    (withTypename type selections).any (HasKey Name.typename) = true := by
  unfold withTypename at h ⊢
  split at h
  · rw [if_pos ‹_›, List.any_append, Bool.or_eq_true]
    exact Or.inr rfl
  · rename_i hadd
    rw [h, Bool.true_and, Bool.not_eq_true', Bool.not_eq_false] at hadd
    rw [if_neg]
    · exact hadd
    · rw [hadd]
      simp

theorem exists_field_of_hasKey {key : String} {list : List Selection}
    (h : list.any (HasKey key) = true) : ∃ f subs, .field f subs ∈ list ∧ f.responseKey = key := by
  obtain ⟨s, hs, hkey⟩ := List.any_eq_true.mp h
  cases s with
  | field f subs => exact ⟨f, subs, hs, beq_iff_eq.mp hkey⟩
  | spread name condition => cases hkey
  | inline condition subs => cases hkey
  | marker name condition subs => cases hkey

/-! ## Lists and merged fields -/

/-- What is collected from a member of a list is collected from the list. -/
theorem mem_collectFields_of_singleton {s : Selection} {list : List Selection} (hs : s ∈ list)
    {p : CollectedField} (hp : p ∈ collectFields [s]) : p ∈ collectFields list := by
  obtain ⟨before, after, rfl⟩ := List.append_of_mem hs
  rw [collectFields_append, ← List.singleton_append, collectFields_append, List.mem_append,
    List.mem_append]
  exact Or.inr (Or.inl hp)

theorem mem_collectFields_of_mem {f : Field} {subs list : List Selection}
    (h : .field f subs ∈ list) : (f, subs) ∈ collectFields list :=
  mem_collectFields_of_singleton h (by simp [collectFields])

/-- The fields of a list of a tree are merged at one path of response keys. -/
theorem exists_path_of_listIn {type parent : String} {selections list : List Selection}
    (h : ListIn type selections parent list) :
    ∃ path, ∀ p ∈ collectFields list, p ∈ mergedAt (collectFields selections) path := by
  induction h with
  | root => exact ⟨[], fun p hp => hp⟩
  | @field parent list subs f _ hm ih =>
    obtain ⟨path, hpath⟩ := ih
    refine ⟨path ++ [f.responseKey], fun p hp => ?_⟩
    rw [mergedAt_concat, collectFields_mergedSelections, List.mem_flatMap]
    refine ⟨(f, subs), List.mem_filter.mpr ⟨?_, beq_iff_eq.mpr rfl⟩, hp⟩
    exact hpath _ (mem_collectFields_of_mem hm)
  | inline _ hm ih =>
    obtain ⟨path, hpath⟩ := ih
    exact ⟨path, fun p hp => hpath p
      (mem_collectFields_of_singleton hm (by simpa [collectFields] using hp))⟩
  | marker _ hm ih =>
    obtain ⟨path, hpath⟩ := ih
    exact ⟨path, fun p hp => hpath p
      (mem_collectFields_of_singleton hm (by simpa [collectFields] using hp))⟩

/-- Fields of an analyzed tree that are merged into one list under one key have one name. -/
theorem name_eq_of_analyze {schema : Schema} {shape : OperationShape} {limit : Nat}
    {set : SelectionSet} (h : analyze schema shape limit = .ok set) {type : String}
    {list : List Selection} (hl : ListIn set.rootType set.selections type list)
    {p q : CollectedField} (hp : p ∈ collectFields list) (hq : q ∈ collectFields list)
    (hkey : p.1.responseKey = q.1.responseKey) : p.1.name = q.1.name := by
  obtain ⟨path, hpath⟩ := exists_path_of_listIn hl
  obtain ⟨root, subs, -, -, -, -, hcheck⟩ := analyze_eq_ok h
  exact checkMerging_name_eq hcheck (hpath p hp) (hpath q hq) hkey

/-! ## Narrowed lists -/

/-- Every list of an analyzed tree with a fragment on another type than its own has a field under
    the key of the meta field, and only fields of this name are merged into it under the key.  It
    selects the meta field there, and nothing else goes by its name, exactly if the list does not
    give the key to another field. -/
theorem narrowed_list_typename {schema : Schema} {shape : OperationShape} {limit : Nat}
    {set : SelectionSet} (h : analyze schema shape limit = .ok set) {type : String}
    {list : List Selection} (hl : ListIn set.rootType set.selections type list)
    (hn : list.any (Narrows type) = true) :
    (∃ f subs, .field f subs ∈ list ∧ f.responseKey = Name.typename ∧
      ∀ p ∈ collectFields list, p.1.responseKey = Name.typename → p.1.name = f.name) ∧
    ((SelectsTypename list ∧ ReservesTypename list) ↔ ¬ MasksTypename list) := by
  have hkey : ∃ f subs, .field f subs ∈ list ∧ f.responseKey = Name.typename := by
    rcases analyze_lists h hl with rfl | ⟨ms, -, -, depth, selections, -, rfl⟩
    · cases hn
    · exact exists_field_of_hasKey (hasKey_of_narrows hn)
  obtain ⟨f, subs, hf, hfkey⟩ := hkey
  have hone : ∀ p ∈ collectFields list, p.1.responseKey = Name.typename → p.1.name = f.name :=
    fun p hp hpkey => name_eq_of_analyze h hl hp (mem_collectFields_of_mem hf)
      (hpkey.trans hfkey.symm)
  refine ⟨⟨f, subs, hf, hfkey, hone⟩, ?_⟩
  constructor
  · rintro ⟨-, hreserves⟩ ⟨g, subs', hg, halias, hne⟩
    refine hne (hreserves (g, subs') (mem_collectFields_of_mem hg) ?_)
    simp [Field.responseKey, halias]
  · intro hmasks
    have hname : f.name = Name.typename := by
      cases halias : f.aliasName with
      | none => simpa [Field.responseKey, halias] using hfkey
      | some a =>
        have ha : a = Name.typename := by simpa [Field.responseKey, halias] using hfkey
        refine Classical.byContradiction fun hne => hmasks ?_
        exact ⟨f, subs, hf, ha ▸ halias, hne⟩
    exact ⟨⟨f, subs, hf, hname, hfkey⟩, fun p hp hpkey => (hone p hp hpkey).trans hname⟩

/-- The list below the crew. -/
def crewList : List Selection := [
  .field ⟨"name", none, "Member", .nonNull .string, [], false⟩ [],
  .inline "Droid" [.field ⟨"model", none, "Droid", .string,
    [⟨"digits", .int, .default, some (.int 2)⟩], false⟩ []],
  addedTypename "Member"]

/-- The list below the crew is narrowed to droids and selects the meta field. -/
theorem narrowed_list_typename_crew :
    analyze crewSchema crewShape 512 = .ok crewAnalyzed ∧
      ListIn "Query" crewAnalyzed.selections "Member" crewList ∧
      crewList.any (Narrows "Member") = true ∧
      SelectsTypename crewList ∧ ReservesTypename crewList := by
  have hl : ListIn "Query" crewAnalyzed.selections "Member" crewList :=
    .field .root (List.mem_singleton.mpr rfl)
  refine ⟨analyze_crew, hl, rfl, (narrowed_list_typename analyze_crew hl rfl).2.mpr ?_⟩
  rintro ⟨f, subs, hf, halias, -⟩
  simp only [crewList, addedTypename, List.mem_cons, Selection.field.injEq, reduceCtorEq,
    List.not_mem_nil, or_false, false_or] at hf
  rcases hf with ⟨rfl, -⟩ | ⟨rfl, -⟩
  · cases halias
  · cases halias

/-! ## The name of the meta field given away -/

/-- The names of a crew under the key of the meta field, and the models of the droids. -/
def maskedShape : OperationShape :=
  { crewShape with
    members := [.nested { name := "crew", positional := [.parameter "ship"] }
      [.leaf { name := "name", aliasName := some Name.typename },
        .narrowed "Droid" [.leaf { name := "model" }]]] }

/-- The list below the crew: it is narrowed, but nothing in it asks for the type. -/
def maskedList : List Selection := [
  .field ⟨"name", some Name.typename, "Member", .nonNull .string, [], false⟩ [],
  .inline "Droid" [.field ⟨"model", none, "Droid", .string,
    [⟨"digits", .int, .default, some (.int 2)⟩], false⟩ []]]

def maskedAnalyzed : SelectionSet :=
  ⟨.query, none, "Query", [
    .field ⟨"crew", none, "Query", .list (.named "Member"),
        [⟨"ship", .nonNull .id, .parameter "ship", none⟩], false⟩ maskedList]⟩

/-- Analysis accepts a narrowed list that does not select the meta field. -/
theorem masked_list_lacks_typename :
    analyze crewSchema maskedShape 512 = .ok maskedAnalyzed ∧
      ListIn "Query" maskedAnalyzed.selections "Member" maskedList ∧
      maskedList.any (Narrows "Member") = true ∧ ¬ SelectsTypename maskedList ∧
      ¬ ReservesTypename maskedList := by
  refine ⟨by cbv, .field .root (List.mem_singleton.mpr rfl), rfl, ?_, ?_⟩
  · rintro ⟨f, subs, hf, hname, -⟩
    simp only [maskedList, List.mem_cons, Selection.field.injEq, reduceCtorEq,
      List.not_mem_nil, or_false] at hf
    rw [hf.1] at hname
    revert hname
    decide
  · intro h
    have halias : .field _ _ ∈ maskedList := List.mem_cons_self
    have hname := h _ (mem_collectFields_of_mem halias) rfl
    revert hname
    decide

end QueryShapes.Analysis
