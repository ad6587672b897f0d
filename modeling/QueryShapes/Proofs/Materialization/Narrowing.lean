/-
  Compiled lists ask for the type that they need.

  A selection list that holds a fragment on another type than its own depends on
  the type that an object says.  `AsksType` says that every such list below a list,
  also in a fragment definition, has a field under the key of the meta field.
  Analysis sees to this list by list, and extraction keeps it: what it writes for a
  list comes from the members of the list and from those of fragments on the same
  type that it splices in (`exists_origin`), with the fields of both.
-/
import QueryShapes.Proofs.Analysis.TypeNames
import QueryShapes.Proofs.Compilation
import QueryShapes.Proofs.Materialization.Positions

namespace QueryShapes

open Selection Fragments Extraction Lifting Analysis

/-! ## Where written selections come from -/

namespace Selection

/-- Everything in a list of a tree is in the tree. -/
theorem ListIn.within {type parent : String} {selections list : List Selection}
    (h : ListIn type selections parent list) : Within list selections := by
  induction h with
  | root => exact .refl selections
  | field _ hm ih => exact (within_children hm).trans ih
  | inline _ hm ih => exact (within_children hm).trans ih
  | marker _ hm ih => exact (within_children hm).trans ih

/-- A marker of a list stands below it. -/
theorem mem_allMarkers_of_mem {name : Option String} {condition : String}
    {subs list : List Selection} (h : .marker name condition subs ∈ list) :
    ⟨name, condition, subs⟩ ∈ allMarkers list := by
  obtain ⟨before, after, rfl⟩ := List.append_of_mem h
  rw [allMarkers_append, allMarkers, List.mem_append, List.mem_cons]
  exact Or.inr (Or.inl rfl)

/-- The values of arguments are changed selection by selection. -/
theorem mapValues_eq_flatMap (g : ArgumentValue → ArgumentValue) (list : List Selection) :
    mapValues g list = list.flatMap fun s => mapValues g [s] := by
  induction list with
  | nil => simp [mapValues]
  | cons s rest ih =>
    rw [← List.singleton_append, mapValues_append, ih, List.flatMap_append]
    simp

end Selection

namespace Extraction

/-- What extraction writes for a selection that it does not splice into its list. -/
inductive WrittenAs (lifted : Lifted) (parent : String) : Selection → Selection → Prop
  | field {f : Field} {subs : List Selection} :
      WrittenAs lifted parent (.field f subs) (.field f (replaced lifted f.type.innerName subs))
  | inline {condition : String} {subs : List Selection} :
      WrittenAs lifted parent (.inline condition subs)
        (.inline condition (replaced lifted condition subs))
  | spread {name : Option String} {condition fragment : String} {subs : List Selection}
      (hl : lifted.name? (groupKey name condition subs) = some fragment) :
      WrittenAs lifted parent (.marker name condition subs) (.spread fragment condition)
  | opened {name : Option String} {condition : String} {subs : List Selection}
      (hc : condition ≠ parent) :
      WrittenAs lifted parent (.marker name condition subs)
        (.inline condition (replaced lifted condition subs))

theorem mem_replaced_tail {lifted : Lifted} {parent : String} {s : Selection}
    {rest : List Selection} {x : Selection} (h : x ∈ replaced lifted parent rest) :
    x ∈ replaced lifted parent (s :: rest) := by
  cases s with
  | marker name condition subs =>
    rw [replaced]
    split
    · exact List.mem_cons_of_mem _ h
    · split
      · exact List.mem_append_right _ h
      · exact List.mem_cons_of_mem _ h
  | _ =>
    rw [replaced]
    exact List.mem_cons_of_mem _ h

theorem field_mem_replaced {lifted : Lifted} {parent : String} {list : List Selection}
    {f : Field} {subs : List Selection} (h : .field f subs ∈ list) :
    .field f (replaced lifted f.type.innerName subs) ∈ replaced lifted parent list := by
  induction list with
  | nil => cases h
  | cons s rest ih =>
    rcases List.mem_cons.mp h with rfl | h
    · rw [replaced]
      exact List.mem_cons_self
    · exact mem_replaced_tail (ih h)

/-- A selection that extraction writes into a list comes from a member of the list, or of a fragment
    on the same type that is spliced into it with everything else. -/
theorem exists_origin {lifted : Lifted} {parent : String} {list : List Selection}
    (hs : allSpreads list = []) {s' : Selection} (h : s' ∈ replaced lifted parent list) :
    ∃ inner, ListIn parent list parent inner ∧
      (∀ x ∈ replaced lifted parent inner, x ∈ replaced lifted parent list) ∧
      ∃ s ∈ inner, WrittenAs lifted parent s s' := by
  have here : ∀ {parent : String} {s : Selection} {rest : List Selection},
      WrittenAs lifted parent s s' → ∃ inner, ListIn parent (s :: rest) parent inner ∧
        (∀ x ∈ replaced lifted parent inner, x ∈ replaced lifted parent (s :: rest)) ∧
        ∃ x ∈ inner, WrittenAs lifted parent x s' :=
    fun hw => ⟨_, .root, fun _ hx => hx, _, List.mem_cons_self, hw⟩
  have later : ∀ {parent : String} {s : Selection} {rest : List Selection},
      (∃ inner, ListIn parent rest parent inner ∧
        (∀ x ∈ replaced lifted parent inner, x ∈ replaced lifted parent rest) ∧
        ∃ x ∈ inner, WrittenAs lifted parent x s') →
      ∃ inner, ListIn parent (s :: rest) parent inner ∧
        (∀ x ∈ replaced lifted parent inner, x ∈ replaced lifted parent (s :: rest)) ∧
        ∃ x ∈ inner, WrittenAs lifted parent x s' := by
    rintro parent s rest ⟨inner, hl, hsub, x, hx, hw⟩
    rcases hl.of_tail (s := s) with ⟨-, rfl⟩ | hl
    · exact ⟨_, .root, fun _ hx => hx, x, List.mem_cons_of_mem s hx, hw⟩
    · exact ⟨inner, hl, fun x hx => mem_replaced_tail (hsub x hx), x, hx, hw⟩
  induction list using listInduction generalizing parent with
  | nil =>
    rw [replaced] at h
    cases h
  | field f subs rest _ ihr =>
    rw [allSpreads, List.append_eq_nil_iff] at hs
    rw [replaced] at h
    rcases List.mem_cons.mp h with rfl | h
    · exact here .field
    · exact later (ihr hs.2 h)
  | spread name condition rest _ =>
    rw [allSpreads] at hs
    cases hs
  | inline condition subs rest _ ihr =>
    rw [allSpreads, List.append_eq_nil_iff] at hs
    rw [replaced] at h
    rcases List.mem_cons.mp h with rfl | h
    · exact here .inline
    · exact later (ihr hs.2 h)
  | marker name condition subs rest ihs ihr =>
    rw [allSpreads, List.append_eq_nil_iff] at hs
    rw [replaced] at h
    split at h
    · rename_i fragment hl
      rcases List.mem_cons.mp h with rfl | h
      · exact here (.spread hl)
      · exact later (ihr hs.2 h)
    · rename_i hl
      split at h
      · rename_i hc
        subst hc
        rcases List.mem_append.mp h with h | h
        · -- the list of the fragment, and not this one, is where the selection comes from
          obtain ⟨inner, hinner, hsub, x, hx, hw⟩ := ihs hs.1 h
          refine ⟨inner, (ListIn.marker .root List.mem_cons_self).trans hinner, fun x hx => ?_, x,
            hx, hw⟩
          rw [replaced, hl]
          simp only [if_true]
          exact List.mem_append_left _ (hsub x hx)
        · exact later (ihr hs.2 h)
      · rename_i hc
        rcases List.mem_cons.mp h with rfl | h
        · exact here (.opened hc)
        · exact later (ihr hs.2 h)

end Extraction

/-! ## Lists that ask for the type they need -/

namespace Materialization

/-- The selection lists below a list on a type, those of fragments and of the definitions of spreads
    included, each with the type that it stands on. -/
inductive Entered (c : Context) (type : String) (selections : List Selection) :
    String → List Selection → Prop
  | root : Entered c type selections type selections
  | field {parent : String} {list subs : List Selection} {f : Field}
      (h : Entered c type selections parent list) (hm : .field f subs ∈ list) :
      Entered c type selections f.type.innerName subs
  | content {parent condition : String} {list body : List Selection} {s : Selection}
      (h : Entered c type selections parent list) (hm : s ∈ list)
      (hc : c.content? s = some (condition, body)) : Entered c type selections condition body

/-- Every list below a list that holds a fragment on another type than its own has a field under the
    key of the meta field. -/
def AsksType (c : Context) (type : String) (selections : List Selection) : Prop :=
  ∀ parent list, Entered c type selections parent list →
    ∀ s ∈ list, ∀ condition body, c.content? s = some (condition, body) → condition ≠ parent →
      ∃ f subs, .field f subs ∈ list ∧ f.responseKey = Name.typename

section Below

variable {c : Context} {type : String} {selections : List Selection}

theorem Entered.trans {parent parent' : String} {list list' : List Selection}
    (h : Entered c type selections parent list) (h' : Entered c parent list parent' list') :
    Entered c type selections parent' list' := by
  induction h' with
  | root => exact h
  | field _ hm ih => exact .field ih hm
  | content _ hm hc ih => exact .content ih hm hc

theorem AsksType.of_entered (h : AsksType c type selections) {parent : String}
    {list : List Selection} (hl : Entered c type selections parent list) :
    AsksType c parent list :=
  fun parent' list' hl' => h parent' list' (hl.trans hl')

/-- What is asked for stands in a list below. -/
theorem Asks.exists_entered {typename : Option String} {f : Field} {subs : List Selection}
    (h : Asks c typename type selections f subs) :
    Entered c type selections f.type.innerName subs := by
  induction h with
  | direct hf => exact .field .root hf
  | through hs hc _ _ ih => exact (Entered.content .root hs hc).trans ih

/-- Lists on one type ask for the type that they need also when they are put together. -/
theorem asksType_mergedSelections {group : List CollectedField}
    (h : ∀ p ∈ group, AsksType c type p.2) : AsksType c type (mergedSelections group) := by
  have hentered : ∀ {parent list}, Entered c type (mergedSelections group) parent list →
      (parent = type ∧ list = mergedSelections group) ∨
        ∃ p ∈ group, Entered c type p.2 parent list := by
    intro parent list hl
    have hmem : ∀ {parent : String} {list : List Selection} {s : Selection}, s ∈ list →
        (parent = type ∧ list = mergedSelections group) ∨
          (∃ p ∈ group, Entered c type p.2 parent list) →
        ∃ p ∈ group, ∃ list', s ∈ list' ∧ Entered c type p.2 parent list' := by
      rintro parent list s hs (⟨rfl, rfl⟩ | ⟨p, hp, hl⟩)
      · obtain ⟨p, hp, hs⟩ := List.mem_flatMap.mp hs
        exact ⟨p, hp, p.2, hs, .root⟩
      · exact ⟨p, hp, list, hs, hl⟩
    induction hl with
    | root => exact Or.inl ⟨rfl, rfl⟩
    | field _ hm ih =>
      obtain ⟨p, hp, list', hm, hl⟩ := hmem hm ih
      exact Or.inr ⟨p, hp, .field hl hm⟩
    | content _ hm hc ih =>
      obtain ⟨p, hp, list', hm, hl⟩ := hmem hm ih
      exact Or.inr ⟨p, hp, .content hl hm hc⟩
  intro parent list hl s hs condition body hc hne
  rcases hentered hl with ⟨rfl, rfl⟩ | ⟨p, hp, hl⟩
  · obtain ⟨p, hp, hs⟩ := List.mem_flatMap.mp hs
    obtain ⟨f, subs, hf, hkey⟩ := h p hp _ _ .root s hs condition body hc hne
    exact ⟨f, subs, List.mem_flatMap.mpr ⟨p, hp, hf⟩, hkey⟩
  · exact h p hp parent list hl s hs condition body hc hne

end Below

/-! ## Compiled lists -/

section Compiled

variable {set : SelectionSet} {lifted : Lifted} {fragments : List FragmentDefinition}
  {query : CompiledQuery}

/-- A selection of a compiled list comes from a list of the analyzed tree that is written into the
    compiled one as a whole. -/
theorem exists_source (h : Compiled set lifted fragments query) {parent : String}
    {list tree : List Selection} (ht : ListIn set.rootType set.selections parent tree)
    (hw : mapValues (restoreValue query.declarations) list = replaced lifted parent tree)
    {s s' : Selection} (hs : s ∈ list)
    (hone : mapValues (restoreValue query.declarations) [s] = [s']) :
    ∃ inner, ListIn set.rootType set.selections parent inner ∧
      (∀ x ∈ replaced lifted parent inner, x ∈ replaced lifted parent tree) ∧
      ∃ x ∈ inner, WrittenAs lifted parent x s' := by
  have hnone : allSpreads tree = [] := by
    refine List.eq_nil_iff_forall_not_mem.mpr fun x hx => ?_
    have hmem := ht.within.spreads x hx
    rw [h.noSpreads] at hmem
    cases hmem
  have hmem : s' ∈ replaced lifted parent tree := by
    rw [← hw, mapValues_eq_flatMap]
    exact List.mem_flatMap.mpr ⟨s, hs, by rw [hone]; exact List.mem_singleton.mpr rfl⟩
  obtain ⟨inner, hinner, hsub, x, hx, hwritten⟩ := exists_origin hnone hmem
  exact ⟨inner, ht.trans hinner, hsub, x, hx, hwritten⟩

/-- The content of a fragment of a compiled list is written for a list of the analyzed tree again,
    and on another type it comes from a fragment on that type. -/
theorem exists_content_source {schema : Schema} (h : Compiled set lifted fragments query)
    {parent : String} {list tree : List Selection}
    (ht : ListIn set.rootType set.selections parent tree)
    (hw : mapValues (restoreValue query.declarations) list = replaced lifted parent tree)
    {s : Selection} (hs : s ∈ list) {condition : String} {body : List Selection}
    (hc : Context.content? ⟨schema, query.fragments⟩ s = some (condition, body)) :
    ∃ inner, ListIn set.rootType set.selections parent inner ∧
      (∀ x ∈ replaced lifted parent inner, x ∈ replaced lifted parent tree) ∧
      (condition ≠ parent → inner.any (Narrows parent) = true) ∧
      ∃ tree', ListIn set.rootType set.selections condition tree' ∧
        mapValues (restoreValue query.declarations) body = replaced lifted condition tree' := by
  have hnarrows : ∀ {inner : List Selection} {x : Selection}, x ∈ inner →
      (condition ≠ parent → Narrows parent x = true) →
      condition ≠ parent → inner.any (Narrows parent) = true :=
    fun hx hn hne => List.any_eq_true.mpr ⟨_, hx, hn hne⟩
  cases s with
  | field f subs => cases hc
  | inline condition' subs =>
    cases hc
    obtain ⟨inner, hinner, hsub, x, hx, hwritten⟩ :=
      exists_source h ht hw hs (by rw [mapValues, mapValues])
    refine ⟨inner, hinner, hsub, ?_⟩
    generalize hbody : mapValues (restoreValue query.declarations) body = written at hwritten
    cases hwritten with
    | inline => exact ⟨hnarrows hx (fun hne => bne_iff_ne.mpr hne), _, .inline hinner hx, rfl⟩
    | opened hne => exact ⟨hnarrows hx (fun hne => bne_iff_ne.mpr hne), _, .marker hinner hx, rfl⟩
  | marker name condition' subs =>
    obtain ⟨inner, hinner, hsub, x, hx, hwritten⟩ :=
      exists_source h ht hw hs (by rw [mapValues, mapValues])
    cases hwritten
  | spread name condition' =>
    obtain ⟨d, hd, heq⟩ := Option.map_eq_some_iff.mp hc
    cases heq
    obtain ⟨inner, hinner, hsub, x, hx, hwritten⟩ :=
      exists_source h ht hw hs (by rw [mapValues, mapValues])
    cases hwritten with
    | @spread markerName _ _ subs hl =>
      refine ⟨inner, hinner, hsub, hnarrows hx (fun hne => bne_iff_ne.mpr hne), subs,
        .marker hinner hx, ?_⟩
      -- the definition may be written from another marker, but its content is this one's
      have hfind : find? fragments name =
          some (d.mapValues (restoreValue query.declarations)) := by
        rw [← h.definitions, find?_mapValues]
        have hd : find? query.fragments name = some d := hd
        rw [hd]
        rfl
      have hmarker := hinner.within.markers _ (mem_allMarkers_of_mem hx)
      have hdefinition := h.extracted.find?_of_lifted h.distinct hmarker hl (by rw [hfind]; rfl)
      rw [hfind] at hdefinition
      exact congrArg FragmentDefinition.selections (Option.some.inj hdefinition)

/-- Every list below a compiled operation is written for a list of the analyzed tree on the same
    type. -/
theorem exists_listIn_of_entered {schema : Schema} (h : Compiled set lifted fragments query)
    {parent : String} {list : List Selection}
    (hl : Entered ⟨schema, query.fragments⟩ query.selectionSet.rootType
      query.selectionSet.selections parent list) :
    ∃ tree, ListIn set.rootType set.selections parent tree ∧
      mapValues (restoreValue query.declarations) list = replaced lifted parent tree := by
  induction hl with
  | root =>
    rw [h.rootType]
    exact ⟨set.selections, .root, h.selections⟩
  | @field parent list subs f _ hm ih =>
    obtain ⟨tree, ht, hw⟩ := ih
    obtain ⟨inner, hinner, -, x, hx, hwritten⟩ :=
      exists_source h ht hw hm (by rw [mapValues, mapValues])
    generalize hsubs : mapValues (restoreValue query.declarations) subs = written at hwritten
    cases hwritten with
    | field =>
      have hlist := ListIn.field hinner hx
      exact ⟨_, hlist, rfl⟩
  | content _ hm hc ih =>
    obtain ⟨tree, ht, hw⟩ := ih
    obtain ⟨-, -, -, -, tree', ht', hw'⟩ := exists_content_source h ht hw hm hc
    exact ⟨tree', ht', hw'⟩

/-- A compiled operation asks for the type of every object that its selections depend on. -/
theorem asksType_of_compile {schema : Schema} {settings : Settings} {shape : OperationShape}
    (ha : analyze schema shape settings.recursionLimit = .ok set)
    (h : Compiled set lifted fragments query) :
    AsksType ⟨schema, query.fragments⟩ query.selectionSet.rootType
      query.selectionSet.selections := by
  intro parent list hl s hs condition body hc hne
  obtain ⟨tree, ht, hw⟩ := exists_listIn_of_entered h hl
  obtain ⟨inner, hinner, hsub, hn, -⟩ := exists_content_source h ht hw hs hc
  have hkey : ∃ f subs, .field f subs ∈ inner ∧ f.responseKey = Name.typename := by
    rcases analyze_lists ha hinner with rfl | ⟨ms, -, -, depth, selections, -, rfl⟩
    · cases hn hne
    · exact exists_field_of_hasKey (hasKey_of_narrows (hn hne))
  obtain ⟨f, subs, hf, hkey⟩ := hkey
  -- extraction and lifting leave the field in the list
  have hwritten : .field f (replaced lifted f.type.innerName subs) ∈
      replaced lifted parent tree := hsub _ (field_mem_replaced hf)
  rw [← hw, mapValues_eq_flatMap] at hwritten
  obtain ⟨s', hs', hmem⟩ := List.mem_flatMap.mp hwritten
  cases s' with
  | field f' subs' =>
    rw [mapValues, mapValues, List.mem_singleton] at hmem
    obtain ⟨rfl, -⟩ := Selection.field.inj hmem
    exact ⟨f', subs', hs', hkey⟩
  | _ =>
    rw [mapValues, mapValues, List.mem_singleton] at hmem
    cases hmem

end Compiled

end Materialization

end QueryShapes
