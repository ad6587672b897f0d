/-
  Materialization computes the merged-selection semantics.

  The code never merges selections: it writes every field over what an earlier
  field of the same key has left.  On resolved and acyclic fragments, and where
  fields of one key have one type, the result is that of the reference, in which
  the sub-selections of the fields that are not injected are concatenated
  (`materialize_eq_ok_iff`).
-/
import QueryShapes.Proofs.Analysis.Merging
import QueryShapes.Proofs.Materialization.Writing

namespace QueryShapes.Materialization

open Selection Fragments Analysis

/-- Whose sub-selections take part in merging: an injected field only tells the type. -/
def written (f : Field) : Bool := !f.injected

/-! ## Fields with their spreads entered -/

section Expansion

variable (fragments : List FragmentDefinition) (fields : List CollectedField)

theorem present_expandField (members : Json.Object) :
    present members (fields.map (expandField fragments)) = present members fields := by
  unfold present
  rw [List.all_map]
  rfl

theorem visible_expandField :
    visible (fields.map (expandField fragments)) = (visible fields).map (expandField fragments) := by
  unfold visible
  rw [List.filter_map]
  rfl

theorem underKey_expandField (key : String) :
    underKey key (fields.map (expandField fragments)) =
      (underKey key fields).map (expandField fragments) := by
  unfold underKey
  rw [List.filter_map]
  rfl

theorem addKeys_expandField (keys : List String) :
    addKeys keys (fields.map (expandField fragments)) = addKeys keys fields := by
  unfold addKeys
  rw [List.foldl_map]
  rfl

theorem mergedSelections_expandField :
    mergedSelections (fields.map (expandField fragments)) =
      expand fragments (mergedSelections fields) := by
  induction fields with
  | nil => simp [mergedSelections]
  | cons p rest ih =>
    rw [mergedSelections, mergedSelections] at ih ⊢
    rw [List.map_cons, List.flatMap_cons, List.flatMap_cons, expand_append, ih]
    rfl

end Expansion

theorem filter_written_underKey (key : String) (fields : List CollectedField) :
    (underKey key fields).filter (written ·.1) = underKey key (visible fields) := by
  unfold underKey visible written
  rw [List.filter_filter, List.filter_filter]
  exact List.filter_congr fun p _ => Bool.and_comm _ _

/-! ## Values -/

variable {schema : Schema} {fragments : List FragmentDefinition}

theorem resolves_mergedSelections {fields : List CollectedField}
    (h : ∀ p ∈ fields, Resolves fragments p.2) : Resolves fragments (mergedSelections fields) := by
  induction fields with
  | nil =>
    intro x hx
    simp [mergedSelections, allSpreads] at hx
  | cons p rest ih =>
    rw [mergedSelections, List.flatMap_cons]
    exact resolves_append.mpr ⟨h p List.mem_cons_self,
      ih fun q hq => h q (List.mem_cons_of_mem _ hq)⟩

/-- The code and the reference agree on the values of a type below the members of an object. -/
def Agree (schema : Schema) (fragments : List FragmentDefinition) (value : Json) : Prop :=
  ∀ (path : Path) (type : FieldType) (selections : List Selection) (r : Json),
    Resolves fragments selections →
    SameTypes schema written type.innerName (expand fragments selections) →
      (complete ⟨schema, fragments⟩ path type selections value .null = .ok r ↔
        completed schema written type (expand fragments selections) value = some r)

/-- Fields with one key on a list have one type where fields of one key are to have one. -/
theorem type_eq_of_sameTypes {parent : String} {selections : List Selection}
    {typename : Option String} (ht : SameTypes schema written parent selections)
    {fields : List CollectedField}
    (hfields : applying schema typename parent selections = fields.map (expandField fragments))
    {p q : CollectedField} (hp : p ∈ fields) (hq : q ∈ fields)
    (hkey : p.1.responseKey = q.1.responseKey) : p.1.type = q.1.type :=
  ht parent selections .root typename (expandField fragments p)
    (hfields ▸ List.mem_map_of_mem hp) (expandField fragments q)
    (hfields ▸ List.mem_map_of_mem hq) hkey

/-- The fields of one key that are not injected write together what the reference makes of the
    group. -/
theorem writes_iff_completedGroup {members : Json.Object}
    (ih : ∀ key v, members.get? key = some v → Agree schema fragments v)
    {fields : List CollectedField} (hr : ∀ p ∈ fields, Resolves fragments p.2)
    {parent : String} {selections : List Selection} {typename : Option String}
    (ht : SameTypes schema written parent selections)
    (hfields : applying schema typename parent selections = fields.map (expandField fragments))
    {p : CollectedField} (hp : p ∈ visible fields) (path : Path) {w : Json} :
    Writes ⟨schema, fragments⟩ path (members.get? p.1.responseKey)
        (p.1, mergedSelections (underKey p.1.responseKey (visible fields))) none w ↔
      completedGroup schema written members p.1.responseKey
        (underKey p.1.responseKey (fields.map (expandField fragments))) = some w := by
  have hmem : p ∈ fields := (List.mem_filter.mp hp).1
  rw [completedGroup]
  cases hget : members.get? p.1.responseKey with
  | none => simp [Writes, eq_comm]
  | some v =>
    have hmerged : mergedSelections ((underKey p.1.responseKey
        (fields.map (expandField fragments))).filter (written ·.1)) =
        expand fragments (mergedSelections (underKey p.1.responseKey (visible fields))) := by
      rw [filter_written_underKey, visible_expandField, underKey_expandField,
        mergedSelections_expandField]
    have hagree : complete ⟨schema, fragments⟩ path p.1.type
          (mergedSelections (underKey p.1.responseKey (visible fields))) v .null = .ok w ↔
        completed schema written p.1.type
          (expand fragments (mergedSelections (underKey p.1.responseKey (visible fields)))) v =
            some w := by
      refine ih _ v hget path _ _ w (resolves_mergedSelections fun q hq => hr q ?_) ?_
      · exact (List.mem_filter.mp (List.mem_filter.mp hq).1).1
      · have hunder := ht.under (hfields ▸ List.mem_map_of_mem hmem)
        rwa [hfields, expandField, hmerged] at hunder
    -- the reference takes the type of the first field of the key, which may be an injected one
    cases hunder : underKey p.1.responseKey fields with
    | nil =>
      have hself := mem_underKey_self hmem
      rw [hunder] at hself
      cases hself
    | cons q others =>
      have hq : q ∈ underKey p.1.responseKey fields := hunder ▸ List.mem_cons_self
      obtain ⟨hq, hqkey⟩ := List.mem_filter.mp hq
      have hqtype := type_eq_of_sameTypes ht hfields hq hmem (beq_iff_eq.mp hqkey)
      rw [hmerged, underKey_expandField, hunder]
      simp only [Writes, Option.getD_none, hagree, List.map_cons, expandField, hqtype]

/-- The steps of an object leave what the reference makes of it. -/
theorem writeSteps_iff_completedObject (hac : Acyclic fragments)
    (hb : ∀ d ∈ fragments, Resolves fragments d.selections) {members : Json.Object}
    (ih : ∀ key v, members.get? key = some v → Agree schema fragments v) {parent : String}
    {selections : List Selection} (hr : Resolves fragments selections)
    (ht : SameTypes schema written parent (expand fragments selections)) (path : Path)
    {output : Json.Object} :
    writeSteps ⟨schema, fragments⟩ path members
        (Context.steps ⟨schema, fragments⟩ members parent selections) [] = .ok output ↔
      completedObject schema written parent (expand fragments selections) members =
        some output := by
  have hlists : Lists schema fragments (typename? members) parent selections
      (Context.steps ⟨schema, fragments⟩ members parent selections) :=
    Context.lists_steps hac hb hr members parent
  obtain ⟨fields, hsteps, hfields, hresolves⟩ := hlists
  have hkeys : (addKeys [] (visible fields)).Nodup := nodup_addKeys List.nodup_nil _
  have htypes : ∀ p ∈ visible fields, ∀ q ∈ visible fields,
      p.1.responseKey = q.1.responseKey → p.1.type = q.1.type := fun p hp q hq =>
    type_eq_of_sameTypes ht hfields (List.mem_filter.mp hp).1 (List.mem_filter.mp hq).1
  rw [hsteps, writeSteps_eq_ok_iff_merged htypes, completedObject, hfields, visible_expandField,
    addKeys_expandField, present_expandField]
  cases present members fields with
  | false => simp
  | true =>
    rw [if_pos rfl, completedMembers_eq_some hkeys]
    refine (and_iff_right rfl).trans (and_congr_right fun _ => ?_)
    constructor
    · intro h key hkey
      obtain ⟨p, hp, rfl⟩ := (mem_addKeys_iff.mp hkey).resolve_left List.not_mem_nil
      obtain ⟨w, hw, hwrites⟩ := h p hp
      exact ⟨w, hw, (writes_iff_completedGroup ih hresolves ht hfields hp _).mp hwrites⟩
    · intro h p hp
      obtain ⟨w, hw, hgroup⟩ := h _ (mem_addKeys_iff.mpr (Or.inr ⟨p, hp, rfl⟩))
      exact ⟨w, hw, (writes_iff_completedGroup ih hresolves ht hfields hp _).mpr hgroup⟩

/-- The items of a new list are completed as the reference completes them. -/
theorem completeItems_iff_completedItems {items : List Json}
    (ih : ∀ v ∈ items, Agree schema fragments v) {type : FieldType}
    {selections : List Selection} (hr : Resolves fragments selections)
    (ht : SameTypes schema written type.innerName (expand fragments selections)) (path : Path)
    (index : Nat) {rs : List Json} :
    completeItems ⟨schema, fragments⟩ path type selections index items
        (List.replicate items.length .null) = .ok rs ↔
      completedItems schema written type (expand fragments selections) items = some rs := by
  induction items generalizing index rs with
  | nil =>
    rw [completeItems_nil_eq_ok, completedItems]
    simp [eq_comm]
  | cons v rest ihr =>
    have hrest := fun index rs =>
      @ihr (fun u hu => ih u (List.mem_cons_of_mem _ hu)) index rs
    rw [completeItems_cons_eq_ok, completedItems, List.length_cons, List.replicate_succ]
    simp only [List.headD_cons, List.tail_cons, hrest, ih v List.mem_cons_self _ _ _ _ hr ht]
    constructor
    · rintro ⟨first, others, rfl, hf, ho⟩
      rw [hf, ho]
      rfl
    · intro h
      obtain ⟨first, hf, h⟩ := Option.bind_eq_some_iff.mp h
      obtain ⟨others, ho, h⟩ := Option.bind_eq_some_iff.mp h
      exact ⟨first, others, (Option.some.inj h).symm, hf, ho⟩

/-- The code and the reference agree on every value. -/
theorem agree (hac : Acyclic fragments) (hb : ∀ d ∈ fragments, Resolves fragments d.selections)
    (value : Json) : Agree schema fragments value := by
  induction hn : sizeOf value using Nat.strongRecOn generalizing value with
  | ind n ih =>
    intro path type selections r hr ht
    -- lists and objects go down in the value, a non-null type stays at the same value
    induction type generalizing path with
    | nonNull inner iht =>
      rw [complete_nonNull_eq_ok, completed_nonNull_eq_some]
      exact and_congr_right fun _ => iht path ht
    | list item _ =>
      rw [complete_list_eq_ok, completed_list_eq_some]
      refine or_congr_right (exists_congr fun items => exists_congr fun done =>
        and_congr_right fun hvalue => and_congr_right fun _ => ?_)
      subst hvalue
      have ht : SameTypes schema written item.innerName (expand fragments selections) := ht
      refine completeItems_iff_completedItems (fun v hv => ih (sizeOf v) ?_ v rfl) hr ht path 0
      have := List.sizeOf_lt_of_mem hv
      rw [← hn, Json.arr.sizeOf_spec]
      omega
    | named name =>
      cases hname : schema.isComposite name with
      | true =>
        rw [complete_composite_eq_ok hname, completed_composite_eq_some hname]
        refine or_congr_right (exists_congr fun members => exists_congr fun output =>
          and_congr_right fun hvalue => and_congr_right fun _ => ?_)
        subst hvalue
        refine writeSteps_iff_completedObject hac hb (fun key v hv => ih (sizeOf v) ?_ v rfl) hr ht
          path
        have := Json.sizeOf_get?_lt hv
        rw [← hn, Json.obj.sizeOf_spec]
        omega
      | false =>
        have hleaf : isLeaf schema (.named name) = true := by simp [isLeaf, hname]
        rw [complete_leaf_eq_ok hleaf, completed_leaf hleaf]
    | _ => rw [complete_leaf_eq_ok rfl, completed_leaf rfl]

/-! ## Whole responses -/

/-- Materialization of an object succeeds exactly when the reference does, in which the fields of
    one key that are not injected are merged and completed once, and then with the same result and
    the same order of keys. -/
theorem materialize_eq_ok_iff {set : SelectionSet}
    (hr : Resolves fragments set.selections)
    (hb : ∀ d ∈ fragments, Resolves fragments d.selections) (hac : Acyclic fragments)
    (ht : SameTypes schema written set.rootType (expand fragments set.selections))
    (members : Json.Object) (r : Json) :
    materialize schema set fragments (.obj members) = .ok r ↔
      (completedObject schema written set.rootType (expand fragments set.selections)
        members).map .obj = some r := by
  have hsteps := fun output => @writeSteps_iff_completedObject schema fragments hac hb members
    (fun _ v _ => agree hac hb v) _ _ hr ht Path.root output
  rw [materialize]
  simp only [bind_eq_ok, pure_eq_ok, Option.map_eq_some_iff, hsteps]

/-! ## A squad selected twice -/

/-- A schema with a list of heroes. -/
def squadSchema : Schema :=
  ⟨"Query", none, [
    ("Query", .object ⟨"Query", [],
      [("squad", ⟨"squad", .list (.named "Hero"), []⟩)]⟩),
    ("Hero", .object ⟨"Hero", [],
      [("id", ⟨"id", .nonNull .id, []⟩), ("name", ⟨"name", .string, []⟩)]⟩)]⟩

def squadField (injected : Bool) (name : String) (type : FieldType) : Selection :=
  .field ⟨"squad", none, "Query", .list (.named "Hero"), [], injected⟩
    [.field ⟨name, none, "Hero", type, [], false⟩ []]

/-- The identifiers of a squad, perhaps on the compiler's own account, and the names from a
    fragment. -/
def squadSet (injected : Bool) : SelectionSet :=
  ⟨.query, none, "Query", [squadField injected "id" (.nonNull .id),
    .spread "SquadNames" "Query"]⟩

def squadFragments : List FragmentDefinition :=
  [⟨"SquadNames", "Query", [squadField false "name" .string]⟩]

/-- A squad of one hero and a missing one. -/
def squadData : Json.Object :=
  [("squad", .arr [.obj [("name", .str "Luke"), ("id", .int 1)], .null])]

theorem resolves_squad (injected : Bool) :
    Resolves squadFragments (squadSet injected).selections := by
  simp [Resolves, squadSet, squadField, squadFragments, allSpreads, find?]

theorem resolves_squadFragments : ∀ d ∈ squadFragments, Resolves squadFragments d.selections := by
  simp [Resolves, squadField, squadFragments, allSpreads]

theorem acyclic_squad : Acyclic squadFragments := by
  refine acyclic_of_rank (fun _ => 0) ?_
  rintro a b ⟨d, hd, condition, hb⟩
  have hd := mem_of_find? hd
  simp only [squadFragments, List.mem_singleton] at hd
  subst hd
  simp [squadField, allSpreads] at hb

theorem expand_squad (injected : Bool) :
    expand squadFragments (squadSet injected).selections =
      [squadField injected "id" (.nonNull .id),
        .marker (some "SquadNames") "Query" [squadField false "name" .string]] := by
  simp [expand, expandWith, expandTo, squadFragments, squadSet, squadField, find?]

theorem sameTypes_squad (counts : Field → Bool) (injected : Bool) :
    SameTypes squadSchema counts "Query"
      (expand squadFragments (squadSet injected).selections) := by
  rw [expand_squad]
  apply sameTypes_of_allFields
  simp [squadField, allFields, Field.responseKey]

/-- The names from the fragment are written into the heroes that the identifiers are in. -/
theorem materialize_squad_merged :
    Resolves squadFragments (squadSet false).selections ∧
      (∀ d ∈ squadFragments, Resolves squadFragments d.selections) ∧
      Acyclic squadFragments ∧
      SameTypes squadSchema written "Query"
        (expand squadFragments (squadSet false).selections) ∧
      materialize squadSchema (squadSet false) squadFragments (.obj squadData) =
        .ok (.obj [("squad", .arr [.obj [("id", .str "1"), ("name", .str "Luke")], .null])]) := by
  refine ⟨resolves_squad false, resolves_squadFragments, acyclic_squad,
    sameTypes_squad written false, ?_⟩
  refine (materialize_eq_ok_iff (resolves_squad false) resolves_squadFragments acyclic_squad
    (sameTypes_squad written false) squadData _).mpr ?_
  rw [expand_squad]
  cbv

theorem materialize_squad_injected :
    materialize squadSchema (squadSet true) squadFragments (.obj squadData) =
      .ok (.obj [("squad", .arr [.obj [("name", .str "Luke")], .null])]) := by
  cbv

theorem completedObject_squad_injected :
    completedObject squadSchema (fun _ => true) "Query"
        (expand squadFragments (squadSet true).selections) squadData =
      some [("squad", .arr [.obj [("id", .str "1"), ("name", .str "Luke")], .null])] := by
  rw [expand_squad]
  cbv

/-- What is selected below an injected field takes no part in merging: with all sub-selections of
    a group concatenated, the reference is a different one. -/
theorem not_merged_with_injected :
    ¬ ∀ (schema : Schema) (set : SelectionSet) (fragments : List FragmentDefinition)
      (members : Json.Object) (r : Json), Resolves fragments set.selections →
      (∀ d ∈ fragments, Resolves fragments d.selections) → Acyclic fragments →
      SameTypes schema (fun _ => true) set.rootType (expand fragments set.selections) →
        (materialize schema set fragments (.obj members) = .ok r ↔
          (completedObject schema (fun _ => true) set.rootType
            (expand fragments set.selections) members).map .obj = some r) := by
  intro h
  have hsquad := (h squadSchema (squadSet true) squadFragments squadData _ (resolves_squad true)
    resolves_squadFragments acyclic_squad (sameTypes_squad _ true)).mp materialize_squad_injected
  have hroot : (squadSet true).rootType = "Query" := rfl
  rw [hroot, completedObject_squad_injected] at hsquad
  simp at hsquad

end QueryShapes.Materialization
