/-
  Merged selection sets of the document that is sent.

  `MergedAt` follows a document the way a server merges it: spreads, inline
  fragments and the sub-selections of fields under one response key.  What is
  merged there is merged in the analyzed tree too (`Compiled.mem_mergedAt`), so
  fields under one key have one name.  Their arguments are the same unless
  lifting set them apart: every variable occurs once in a document, and two
  fields that take a parameter get two variables (`mergedAt_agree`).
-/
import Mathlib.Data.List.Nodup
import Mathlib.Data.List.Pairwise
import QueryShapes.Proofs.Analysis.Merging
import QueryShapes.Proofs.Compilation

namespace QueryShapes

open Selection Fragments Lifting Extraction Analysis

/-! ## Merging in a document -/

/-- A field that a list selects on its level, with what is selected below it: fragments are
    entered, whether or not their conditions apply. -/
inductive Selects (fragments : List FragmentDefinition) :
    List Selection → Field → List Selection → Prop
  | field {selections : List Selection} {f : Field} {subs : List Selection}
      (hs : .field f subs ∈ selections) : Selects fragments selections f subs
  | inline {selections ss : List Selection} {condition : String} {f : Field}
      {subs : List Selection} (hs : .inline condition ss ∈ selections)
      (h : Selects fragments ss f subs) : Selects fragments selections f subs
  | marker {selections ss : List Selection} {name : Option String} {condition : String}
      {f : Field} {subs : List Selection} (hs : .marker name condition ss ∈ selections)
      (h : Selects fragments ss f subs) : Selects fragments selections f subs
  | spread {selections : List Selection} {name condition : String} {d : FragmentDefinition}
      {f : Field} {subs : List Selection} (hs : .spread name condition ∈ selections)
      (hd : find? fragments name = some d) (h : Selects fragments d.selections f subs) :
      Selects fragments selections f subs

/-- A field of the selection set that is merged at a path of response keys: below the root stands
    what is selected below all fields under one key, one list after the other. -/
inductive MergedAt (fragments : List FragmentDefinition) (selections : List Selection) :
    List String → Field → List Selection → Prop
  | root {f : Field} {subs : List Selection} (h : Selects fragments selections f subs) :
      MergedAt fragments selections [] f subs
  | under {path : List String} {f g : Field} {subs subs' : List Selection}
      (hf : MergedAt fragments selections path f subs) (h : Selects fragments subs g subs') :
      MergedAt fragments selections (path ++ [f.responseKey]) g subs'

variable {fragments : List FragmentDefinition} {selections : List Selection}

/-! ## Merging in the tree with its fragments put back -/

theorem mem_collectFields_expand_of_mem {s : Selection} (hs : s ∈ selections) {p : CollectedField}
    (h : p ∈ collectFields (expand fragments [s])) :
    p ∈ collectFields (expand fragments selections) := by
  obtain ⟨as, bs, rfl⟩ := List.append_of_mem hs
  have hcons : s :: bs = [s] ++ bs := rfl
  rw [hcons, expand_append, expand_append, collectFields_append, collectFields_append]
  exact List.mem_append_right _ (List.mem_append_left _ h)

theorem Selects.mem_collectFields (hac : Acyclic fragments) {f : Field} {subs : List Selection}
    (h : Selects fragments selections f subs) :
    (f, expand fragments subs) ∈ collectFields (expand fragments selections) := by
  induction h with
  | field hs =>
    refine mem_collectFields_expand_of_mem hs ?_
    rw [expand_field, collectFields]
    exact List.mem_cons_self
  | inline hs _ ih =>
    refine mem_collectFields_expand_of_mem hs ?_
    rw [expand_inline, collectFields]
    exact List.mem_append_left _ ih
  | marker hs _ ih =>
    refine mem_collectFields_expand_of_mem hs ?_
    rw [expand_marker, collectFields]
    exact List.mem_append_left _ ih
  | spread hs hd _ ih =>
    refine mem_collectFields_expand_of_mem hs ?_
    rw [expand_spread hac hd, collectFields]
    exact List.mem_append_left _ ih

theorem MergedAt.mem_mergedAt (hac : Acyclic fragments) {path : List String} {f : Field}
    {subs : List Selection} (h : MergedAt fragments selections path f subs) :
    (f, expand fragments subs) ∈ mergedAt (collectFields (expand fragments selections)) path := by
  induction h with
  | root h => exact h.mem_collectFields hac
  | under hf h ih =>
    rw [mergedAt_concat, collectFields_mergedSelections, List.mem_flatMap]
    exact ⟨_, List.mem_filter.mpr ⟨ih, beq_self_eq_true _⟩, h.mem_collectFields hac⟩

theorem collectFields_inlineMarkers (parent : String) (selections : List Selection) :
    collectFields (inlineMarkers parent selections) =
      (collectFields selections).map fun p => (p.1, inlineMarkers p.1.type.innerName p.2) := by
  induction selections using listInduction generalizing parent with
  | nil => simp [inlineMarkers, collectFields]
  | field f subs rest ihs ihr => simp [inlineMarkers, collectFields, ihr]
  | spread name condition rest ihr => simp [inlineMarkers, collectFields, ihr]
  | inline condition subs rest ihs ihr => simp [inlineMarkers, collectFields, ihs, ihr]
  | marker name condition subs rest ihs ihr =>
    by_cases h : condition = parent
    · simp [inlineMarkers, collectFields, collectFields_append, ihs, ihr, h]
    · simp [inlineMarkers, collectFields, ihs, ihr, h]

theorem collectFields_mapValues (g : ArgumentValue → ArgumentValue)
    (selections : List Selection) :
    collectFields (mapValues g selections) =
      (collectFields selections).map fun p => (p.1.mapValues g, mapValues g p.2) := by
  induction selections using listInduction with
  | nil => simp [mapValues, collectFields]
  | field f subs rest ihs ihr => simp [mapValues, collectFields, ihr]
  | spread name condition rest ihr => simp [mapValues, collectFields, ihr]
  | inline condition subs rest ihs ihr => simp [mapValues, collectFields, ihs, ihr]
  | marker name condition subs rest ihs ihr => simp [mapValues, collectFields, ihs, ihr]

theorem mergedAt_inlineMarkers (parent : String) (selections : List Selection)
    (path : List String) :
    mergedAt (collectFields (inlineMarkers parent selections)) path =
      (mergedAt (collectFields selections) path).map fun p =>
        (p.1, inlineMarkers p.1.type.innerName p.2) := by
  rw [collectFields_inlineMarkers]
  exact mergedAt_map id (fun f subs => inlineMarkers f.type.innerName subs) (fun _ => rfl)
    (fun f subs => collectFields_inlineMarkers f.type.innerName subs) _ path

theorem mergedAt_mapValues (g : ArgumentValue → ArgumentValue) (selections : List Selection)
    (path : List String) :
    mergedAt (collectFields (mapValues g selections)) path =
      (mergedAt (collectFields selections) path).map fun p =>
        (p.1.mapValues g, mapValues g p.2) := by
  rw [collectFields_mapValues]
  exact mergedAt_map (Field.mapValues g) (fun _ => mapValues g) (fun _ => rfl)
    (fun _ => collectFields_mapValues g) _ path

/-! ## A compiled operation -/

theorem acyclic_mapValues (g : ArgumentValue → ArgumentValue) :
    Acyclic (fragments.map (FragmentDefinition.mapValues g)) ↔ Acyclic fragments := by
  have huses : Uses (fragments.map (FragmentDefinition.mapValues g)) = Uses fragments := by
    funext a b
    unfold Uses
    rw [find?_mapValues]
    simp only [Option.map_eq_some_iff, exists_exists_and_eq_and]
    simp only [FragmentDefinition.mapValues, allSpreads_mapValues]
  unfold Acyclic
  rw [huses]

theorem resolves_mapValues {g : ArgumentValue → ArgumentValue} :
    Resolves (fragments.map (FragmentDefinition.mapValues g)) (mapValues g selections) ↔
      Resolves fragments selections := by
  unfold Resolves
  simp only [allSpreads_mapValues, find?_mapValues, Option.isSome_map]

namespace Compiled

variable {set : SelectionSet} {lifted : Lifted} {query : CompiledQuery}

/-- Every spread of a compiled operation has a definition. -/
theorem resolves (h : Compiled set lifted fragments query) :
    Resolves query.fragments query.selectionSet.selections := by
  rw [← resolves_mapValues (g := restoreValue query.declarations), h.definitions, h.selections]
  exact h.extracted.resolves

/-- Every spread of a fragment definition has a definition. -/
theorem bodies (h : Compiled set lifted fragments query) :
    ∀ d ∈ query.fragments, Resolves query.fragments d.selections := by
  intro d hd
  have hmem : d.mapValues (restoreValue query.declarations) ∈ fragments :=
    h.definitions ▸ List.mem_map_of_mem hd
  rw [← resolves_mapValues (g := restoreValue query.declarations), h.definitions]
  exact h.extracted.bodies _ hmem

theorem acyclic (h : Compiled set lifted fragments query) : Acyclic query.fragments := by
  rw [← acyclic_mapValues (restoreValue query.declarations), h.definitions]
  exact h.extracted.acyclic h.distinct h.noSpreads

/-- What is merged in a compiled document is merged in the analyzed tree, with parameters where
    the document has variables. -/
theorem mem_mergedAt (h : Compiled set lifted fragments query) {path : List String} {f : Field}
    {subs : List Selection}
    (hf : MergedAt query.fragments query.selectionSet.selections path f subs) :
    ∃ p ∈ mergedAt (collectFields set.selections) path,
      p.1 = f.mapValues (restoreValue query.declarations) := by
  have hmem := hf.mem_mergedAt h.acyclic
  have hput : ∃ p ∈ mergedAt (collectFields (putBack query.fragments query.selectionSet.rootType
      query.selectionSet.selections)) path, p.1 = f := by
    unfold putBack
    rw [mergedAt_inlineMarkers]
    exact ⟨_, List.mem_map_of_mem hmem, rfl⟩
  obtain ⟨p, hp, rfl⟩ := hput
  have hrestored : (p.1.mapValues (restoreValue query.declarations),
      mapValues (restoreValue query.declarations) p.2) ∈
      mergedAt (collectFields (inlineMarkers set.rootType set.selections)) path := by
    rw [← h.putBack_eq, mergedAt_mapValues]
    exact List.mem_map_of_mem hp
  rw [mergedAt_inlineMarkers] at hrestored
  obtain ⟨q, hq, hqp⟩ := List.mem_map.mp hrestored
  exact ⟨q, hq, congrArg Prod.fst hqp⟩

/-- A merged field is a field of the document. -/
theorem mem_documentFields (h : Compiled set lifted fragments query) {path : List String}
    {f : Field} {subs : List Selection}
    (hf : MergedAt query.fragments query.selectionSet.selections path f subs) :
    f ∈ documentFields query.selectionSet.selections query.fragments := by
  have hmem := mem_allFields_of_mem_mergedAt (hf.mem_mergedAt h.acyclic)
  rw [documentFields, List.mem_append, List.mem_flatMap]
  exact mem_allFields_expand hmem

/-- No two fields of a document have a variable in common. -/
theorem eq_of_common_variable (h : Compiled set lifted fragments query) {f g : Field}
    (hf : f ∈ documentFields query.selectionSet.selections query.fragments)
    (hg : g ∈ documentFields query.selectionSet.selections query.fragments) {a b : FieldArgument}
    (ha : a ∈ f.arguments) (hb : b ∈ g.arguments) {name : String}
    (han : a.value = .documentVariable name) (hbn : b.value = .documentVariable name) :
    f = g := by
  have hnodup := h.names
  rw [← h.variableNames_eq, documentArguments_eq, variableNames, List.filterMap_flatMap,
    List.nodup_flatMap] at hnodup
  by_contra hne
  have : Std.Symm (Function.onFun List.Disjoint fun e : Field =>
      e.arguments.filterMap (·.variableName?)) := ⟨fun _ _ hd => hd.symm⟩
  have hdisjoint := hnodup.2.forall hf hg hne
  exact hdisjoint (mem_variableNames_iff.mpr ⟨a, ha, han⟩) (mem_variableNames_iff.mpr ⟨b, hb, hbn⟩)

end Compiled

/-- The constants of an analyzed field are regular if the shape writes its objects with distinct
    keys. -/
theorem regular_of_analyze {schema : Schema} {shape : OperationShape} {limit : Nat}
    {set : SelectionSet} (ha : Analysis.analyze schema shape limit = .ok set)
    (hk : ∀ request ∈ Member.requests shape.members, ∀ l, .literal l ∈ request.inputs →
      l.DistinctKeys) {f : Field} (hf : f ∈ allFields set.selections) : f.Regular := by
  intro a hmem
  obtain ⟨request, hr, hbound⟩ := (analyze_faithful ha).arguments f hf a hmem
  rcases hbound with hv | ⟨p, -, hv⟩ | ⟨l, hl, hv, haccepts⟩
  · rw [hv]
    trivial
  · rw [hv]
    trivial
  · rw [hv]
    exact Literal.regular_of_acceptsLiteral (hk request hr l hl) haccepts

theorem regular_of_mapValues (declared : Declarations) {f : Field}
    (h : (f.mapValues (restoreValue declared)).Regular) : f.Regular := by
  intro a ha
  have hr := h _ (List.mem_map_of_mem ha)
  cases hv : a.value with
  | literal l =>
    rw [FieldArgument.mapValue, hv] at hr
    exact hr
  | _ => trivial

/-- A value that is neither a variable nor a parameter, and is the same as another one after
    parameters are written back, was the same before. -/
theorem eqv_of_restoreValue (declared : Declarations) {v w : ArgumentValue}
    (hv : ∀ name, v ≠ .documentVariable name) (hp : ∀ name, v ≠ .parameter name)
    (h : (restoreValue declared v).eqv (restoreValue declared w) = true) : v.eqv w = true := by
  rw [restoreValue_of_ne declared hv] at h
  cases w with
  | documentVariable name =>
    rw [restoreValue] at h
    split at h
    · cases v <;> simp_all [ArgumentValue.eqv]
    · exact h
  | _ => exact h

/-- Fields that are merged under one response key of a compiled document have one name.  They have
    the same arguments exactly if they are one field, every variable being written once, or if
    they have no variables: two fields that take a parameter do not merge. -/
theorem mergedAt_agree {schema : Schema} {settings : Settings} {shape : OperationShape}
    {query : CompiledQuery} {set : SelectionSet}
    (ha : Analysis.analyze schema shape settings.recursionLimit = .ok set)
    (hd : DistinctFingerprints set.selections)
    (hk : ∀ request ∈ Member.requests shape.members, ∀ l, .literal l ∈ request.inputs →
      l.DistinctKeys)
    (hc : compile schema settings shape = .ok query) {path : List String} {f g : Field}
    {fs gs : List Selection}
    (hf : MergedAt query.fragments query.selectionSet.selections path f fs)
    (hg : MergedAt query.fragments query.selectionSet.selections path g gs)
    (hkey : f.responseKey = g.responseKey) :
    f.name = g.name ∧ (f.SameArguments g ↔
      f = g ∨ ∀ a ∈ f.arguments, ∀ name, a.value ≠ .documentVariable name) := by
  obtain ⟨lifted, fragments, h⟩ := compile_eq_ok ha hd hc
  -- `p` and `q` are the two fields as analysis checked them
  obtain ⟨p, hp, hpf⟩ := h.mem_mergedAt hf
  obtain ⟨q, hq, hqg⟩ := h.mem_mergedAt hg
  obtain ⟨root, subs, -, -, -, hset, hcheck⟩ := analyze_eq_ok ha
  have hreg : ∀ r ∈ mergedAt (collectFields set.selections) path, r.1.Regular := fun r hr =>
    regular_of_analyze ha hk (mem_allFields_of_mem_mergedAt hr)
  have hkey' : p.1.responseKey = q.1.responseKey := by
    rw [hpf, hqg, Field.mapValues_responseKey, Field.mapValues_responseKey, hkey]
  obtain ⟨hname, hsame⟩ := checkMerging_agree hcheck hreg hp hq hkey'
  have hregf : f.Regular := regular_of_mapValues query.declarations (hpf ▸ hreg p hp)
  rw [hpf, hqg] at hname hsame
  refine ⟨hname, fun hfg => ?_, ?_⟩
  · by_cases hnone : ∀ a ∈ f.arguments, ∀ name, a.value ≠ .documentVariable name
    · exact Or.inr hnone
    · push Not at hnone
      obtain ⟨a, hmem, name, hv⟩ := hnone
      obtain ⟨b, hb, -, hvalue⟩ := hfg.exists_same hmem
      rw [hv] at hvalue
      have hbv : b.value = .documentVariable name := by
        cases hb : b.value <;> simp_all [ArgumentValue.eqv]
      exact Or.inl (h.eq_of_common_variable (h.mem_documentFields hf) (h.mem_documentFields hg)
        hmem hb hv hbv)
  · rintro (rfl | hnone)
    · exact .refl hregf
    · have hwritten : ∀ a ∈ f.arguments, (∀ name, a.value ≠ .documentVariable name) ∧
          ∀ name, a.value ≠ .parameter name := by
        refine fun a ha => ⟨hnone a ha, h.value_ne_parameter ?_⟩
        rw [documentArguments_eq]
        exact List.mem_flatMap.mpr ⟨f, h.mem_documentFields hf, ha⟩
      unfold Field.SameArguments Field.mapValues at hsame
      rw [List.forall₂_map_left_iff, List.forall₂_map_right_iff] at hsame
      have hsame := (List.forall₂_and_left _ _).mpr ⟨hwritten, hsame⟩
      refine hsame.imp ?_
      rintro a b ⟨⟨hv, hp⟩, hname, hvalue⟩
      exact ⟨hname, eqv_of_restoreValue query.declarations hv hp hvalue⟩

/-! ## The hero asked for twice -/

theorem mergedAt_hero_first : MergedAt heroFragments heroCompiled.selections []
    (heroField (.documentVariable "hero_id")) [.spread "heroFields" "Hero"] :=
  .root (.field List.mem_cons_self)

theorem mergedAt_hero_second : MergedAt heroFragments heroCompiled.selections []
    (heroField (.documentVariable "hero_id_2")) [.spread "heroFields" "Hero"] :=
  .root (.inline (List.mem_cons_of_mem _ List.mem_cons_self) (.field List.mem_cons_self))

theorem not_sameArguments_hero : ¬ (heroField (.documentVariable "hero_id")).SameArguments
    (heroField (.documentVariable "hero_id_2")) := by
  intro h
  cases h with
  | cons hsame _ =>
    obtain ⟨-, hvalue⟩ := hsame
    revert hvalue
    decide

/-- Analysis lets the two heroes merge, but the document asks for them with two variables. -/
theorem hero_not_merged :
    compile heroSchema {} heroShape = .ok heroQuery ∧
      MergedAt heroQuery.fragments heroQuery.selectionSet.selections []
        (heroField (.documentVariable "hero_id")) [.spread "heroFields" "Hero"] ∧
      MergedAt heroQuery.fragments heroQuery.selectionSet.selections []
        (heroField (.documentVariable "hero_id_2")) [.spread "heroFields" "Hero"] ∧
      (heroField (.documentVariable "hero_id")).responseKey =
        (heroField (.documentVariable "hero_id_2")).responseKey ∧
      ¬ (heroField (.documentVariable "hero_id")).SameArguments
        (heroField (.documentVariable "hero_id_2")) :=
  ⟨compile_hero, mergedAt_hero_first, mergedAt_hero_second, rfl, not_sameArguments_hero⟩

theorem distinctKeys_hero : ∀ request ∈ Member.requests heroShape.members, ∀ l,
    ArgumentInput.literal l ∈ request.inputs → l.DistinctKeys := by
  simp [heroShape, heroMember, Member.requests, FieldRequest.inputs]

/-- The two heroes have one name, and they would merge only if they took no variables. -/
theorem mergedAt_agree_hero :
    DistinctFingerprints heroAnalyzed.selections ∧
      compile heroSchema {} heroShape = .ok heroQuery ∧
      (heroField (.documentVariable "hero_id")).name =
        (heroField (.documentVariable "hero_id_2")).name ∧
      ((heroField (.documentVariable "hero_id")).SameArguments
          (heroField (.documentVariable "hero_id_2")) ↔
        heroField (.documentVariable "hero_id") = heroField (.documentVariable "hero_id_2") ∨
          ∀ a ∈ (heroField (.documentVariable "hero_id")).arguments, ∀ name,
            a.value ≠ .documentVariable name) :=
  ⟨distinctFingerprints_hero, compile_hero,
    mergedAt_agree analyze_hero distinctFingerprints_hero distinctKeys_hero compile_hero
      mergedAt_hero_first mergedAt_hero_second rfl⟩

end QueryShapes
