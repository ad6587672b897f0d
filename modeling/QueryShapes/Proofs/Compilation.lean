/-
  What a compiled operation keeps of the analyzed one.

  Its variables are all different and are the declared ones, one for every
  parameter of the extracted tree, and that tree has the arguments of the
  analyzed one (`Compiled.mem_arguments_iff`).  Writing parameters back and
  putting fragments back gives the analyzed tree with its markers put back
  (`Compiled.putBack_eq`).
-/
import QueryShapes.Compilation
import QueryShapes.Proofs.Extraction.Inlining
import QueryShapes.Proofs.Lifting.Variables

namespace QueryShapes

open Selection Fragments Lifting Extraction

/-- Putting fragments back brings in no fields but those of the fragments. -/
theorem mem_documentFields_of_putBack {fragments : List FragmentDefinition} {parent : String}
    {selections : List Selection} {f : Field}
    (h : f ∈ allFields (putBack fragments parent selections)) :
    f ∈ documentFields selections fragments := by
  rw [putBack, allFields_inlineMarkers] at h
  rw [documentFields, List.mem_append, List.mem_flatMap]
  exact mem_allFields_expand h

theorem mem_documentArguments_of_putBack {fragments : List FragmentDefinition} {parent : String}
    {selections : List Selection} {a : FieldArgument}
    (h : a ∈ allArguments (putBack fragments parent selections)) :
    a ∈ documentArguments selections fragments := by
  obtain ⟨f, hf, ha⟩ := List.mem_flatMap.mp h
  rw [documentArguments_eq, List.mem_flatMap]
  exact ⟨f, mem_documentFields_of_putBack hf, ha⟩

/-- The analyzed operation, its extraction and its lifting, with what these promise to each
    other. -/
structure Compiled (set : SelectionSet) (lifted : Lifted) (fragments : List FragmentDefinition)
    (query : CompiledQuery) : Prop where
  noSpreads : allSpreads set.selections = []
  distinct : DistinctFingerprints set.selections
  extracted : Extracted set lifted fragments
  lifts : Lifts [] query.declarations
    (documentArguments (replaced lifted set.rootType set.selections) fragments)
    (documentArguments query.selectionSet.selections query.fragments)
  selections : mapValues (restoreValue query.declarations) query.selectionSet.selections =
    replaced lifted set.rootType set.selections
  definitions : query.fragments.map (FragmentDefinition.mapValues
    (restoreValue query.declarations)) = fragments
  rootType : query.selectionSet.rootType = set.rootType

namespace Compiled

variable {set : SelectionSet} {lifted : Lifted} {fragments : List FragmentDefinition}
  {query : CompiledQuery}

/-- Putting the fragments of an extracted operation back. -/
theorem putBack_replaced (hs : allSpreads set.selections = [])
    (hd : DistinctFingerprints set.selections) (he : Extracted set lifted fragments) :
    putBack fragments set.rootType (replaced lifted set.rootType set.selections) =
      inlineMarkers set.rootType set.selections :=
  he.inline_expand_replaced hd hs (.refl _) _ he.resolves

/-- The fields of an extracted tree are fields of the analyzed one. -/
theorem mem_fields_of_extracted (he : Extracted set lifted fragments) {f : Field}
    (h : f ∈ documentFields (replaced lifted set.rootType set.selections) fragments) :
    f ∈ allFields set.selections := by
  rcases List.mem_append.mp h with hf | hf
  · exact mem_allFields_replaced hf
  · obtain ⟨d, hd, hf⟩ := List.mem_flatMap.mp hf
    obtain ⟨m, hm, -, -, hsel⟩ := he.lifts d hd
    rw [hsel] at hf
    exact (within_of_mem_allMarkers hm).fields f (mem_allFields_replaced hf)

theorem mem_arguments_of_extracted (he : Extracted set lifted fragments) {a : FieldArgument}
    (h : a ∈ documentArguments (replaced lifted set.rootType set.selections) fragments) :
    a ∈ allArguments set.selections := by
  rw [documentArguments_eq] at h
  obtain ⟨f, hf, ha⟩ := List.mem_flatMap.mp h
  exact List.mem_flatMap.mpr ⟨f, mem_fields_of_extracted he hf, ha⟩

/-- The arguments of an extracted tree are those of the analyzed one. -/
theorem mem_arguments_iff (hs : allSpreads set.selections = [])
    (hd : DistinctFingerprints set.selections) (he : Extracted set lifted fragments)
    {a : FieldArgument} :
    a ∈ documentArguments (replaced lifted set.rootType set.selections) fragments ↔
      a ∈ allArguments set.selections := by
  constructor
  · exact mem_arguments_of_extracted he
  · intro ha
    have hput : a ∈ allArguments (putBack fragments set.rootType
        (replaced lifted set.rootType set.selections)) := by
      rw [putBack_replaced hs hd he]
      unfold allArguments at ha ⊢
      rwa [allFields_inlineMarkers]
    exact mem_documentArguments_of_putBack hput

/-- Writing the parameters of a compiled operation back and putting its fragments back gives the
    analyzed tree with its markers put back. -/
theorem putBack_eq (h : Compiled set lifted fragments query) :
    mapValues (restoreValue query.declarations) (putBack query.fragments
        query.selectionSet.rootType query.selectionSet.selections) =
      inlineMarkers set.rootType set.selections := by
  rw [← putBack_replaced h.noSpreads h.distinct h.extracted, ← h.selections, ← h.definitions,
    h.rootType]
  unfold putBack
  rw [expand_mapValues, inlineMarkers_mapValues]

/-- No two declarations of a compiled operation share a name. -/
theorem names (h : Compiled set lifted fragments query) :
    (query.declarations.map (·.name)).Nodup :=
  h.lifts.names List.nodup_nil

/-- No argument of a compiled operation is bound to a parameter. -/
theorem value_ne_parameter (h : Compiled set lifted fragments query) {a : FieldArgument}
    (ha : a ∈ documentArguments query.selectionSet.selections query.fragments)
    (parameter : String) : a.value ≠ .parameter parameter := by
  intro hv
  have hmem : (a.type, parameter) ∈ parameterUses (documentArguments
      query.selectionSet.selections query.fragments) :=
    mem_parameterUses_iff.mpr ⟨a, ha, rfl, hv⟩
  rw [h.lifts.noParameters] at hmem
  cases hmem

/-- The variables of a compiled operation are the declared ones, in order. -/
theorem variableNames_eq (h : Compiled set lifted fragments query) :
    variableNames (documentArguments query.selectionSet.selections query.fragments) =
      query.declarations.map (·.name) := by
  obtain ⟨new, hnew, hv, -⟩ := h.lifts.grows
  rw [hv, hnew, List.nil_append]

/-- There is a declaration for every parameter of the analyzed tree, and no other. -/
theorem mem_declarations_iff (h : Compiled set lifted fragments query) {type : FieldType}
    {parameter : String} :
    (∃ d ∈ query.declarations, d.type = type ∧ d.parameter = parameter) ↔
      ∃ a ∈ allArguments set.selections, a.type = type ∧ a.value = .parameter parameter := by
  obtain ⟨new, hnew, -, hp⟩ := h.lifts.grows
  rw [hnew, List.nil_append]
  have hmem : (∃ d ∈ new, d.type = type ∧ d.parameter = parameter) ↔
      (type, parameter) ∈ new.map fun d => (d.type, d.parameter) := by
    simp only [List.mem_map, Prod.mk.injEq]
  rw [hmem, ← hp]
  simp only [mem_parameterUses_iff, mem_arguments_iff h.noSpreads h.distinct h.extracted]

end Compiled

/-- The stages of a compilation that succeeds. -/
theorem compile_stages {schema : Schema} {settings : Settings} {shape : OperationShape}
    {query : CompiledQuery} (hc : compile schema settings shape = .ok query) :
    ∃ set lifted fragments,
      Analysis.analyze schema shape settings.recursionLimit = .ok set ∧
      nameGroups [] (countMarkers [] set.selections) = .ok lifted ∧
      Extracted set lifted fragments ∧
      lift { set with selections := replaced lifted set.rootType set.selections } fragments =
        (query.selectionSet, query.fragments, query.declarations) ∧
      query.operationName = set.operationName := by
  unfold compile at hc
  simp only [bind_eq_ok, pure_eq_ok] at hc
  obtain ⟨set, ha, ⟨extracted, fragments⟩, hx, document, -, rfl⟩ := hc
  obtain ⟨lifted, hnames, rfl, he⟩ := extract_named hx (Analysis.analyze_faithful ha).noSpreads
  exact ⟨set, lifted, fragments, ha, hnames, he, rfl, rfl⟩

/-- Lifting what was extracted from an analyzed tree declares its parameters and is undone by
    writing them back. -/
theorem lift_extracted {schema : Schema} {shape : OperationShape} {limit : Nat}
    {set set' : SelectionSet} (ha : Analysis.analyze schema shape limit = .ok set)
    {lifted : Lifted} {fragments fragments' : List FragmentDefinition}
    (he : Extracted set lifted fragments) {declared : Declarations}
    (hl : lift { set with selections := replaced lifted set.rootType set.selections } fragments =
      (set', fragments', declared)) :
    Lifts [] declared
        (documentArguments (replaced lifted set.rootType set.selections) fragments)
        (documentArguments set'.selections fragments') ∧
      mapValues (restoreValue declared) set'.selections =
        replaced lifted set.rootType set.selections ∧
      fragments'.map (FragmentDefinition.mapValues (restoreValue declared)) = fragments ∧
      set' = { set with selections := set'.selections } := by
  refine lift_eq hl fun a hdoc => ?_
  obtain ⟨f, hf, hb⟩ := List.mem_flatMap.mp (Compiled.mem_arguments_of_extracted he hdoc)
  obtain ⟨request, -, hbound⟩ := (Analysis.analyze_faithful ha).arguments f hf a hb
  rcases hbound with hv | ⟨p, -, hv⟩ | ⟨l, -, hv, -⟩ <;> simp [FieldArgument.variableName?, hv]

/-- A field of a compiled operation is one of the analyzed tree, with its parameters written as
    variables. -/
theorem mem_allFields_of_lift {schema : Schema} {shape : OperationShape} {limit : Nat}
    {set set' : SelectionSet} (ha : Analysis.analyze schema shape limit = .ok set)
    {lifted : Lifted} {fragments fragments' : List FragmentDefinition}
    (he : Extracted set lifted fragments) {declared : Declarations}
    (hl : lift { set with selections := replaced lifted set.rootType set.selections } fragments =
      (set', fragments', declared)) {f : Field}
    (hf : f ∈ documentFields set'.selections fragments') :
    f.mapValues (restoreValue declared) ∈ allFields set.selections := by
  obtain ⟨-, hsel, hdef, -⟩ := lift_extracted ha he hl
  refine Compiled.mem_fields_of_extracted he ?_
  rw [← hsel, ← hdef, documentFields, List.flatMap_map]
  rcases List.mem_append.mp hf with hf | hf
  · rw [allFields_mapValues]
    exact List.mem_append_left _ (List.mem_map_of_mem hf)
  · obtain ⟨d, hd, hf⟩ := List.mem_flatMap.mp hf
    refine List.mem_append_right _ (List.mem_flatMap.mpr ⟨d, hd, ?_⟩)
    show _ ∈ allFields (mapValues (restoreValue declared) d.selections)
    rw [allFields_mapValues]
    exact List.mem_map_of_mem hf

/-- A compilation that succeeds. -/
theorem compile_eq_ok {schema : Schema} {settings : Settings} {shape : OperationShape}
    {query : CompiledQuery} {set : SelectionSet}
    (ha : Analysis.analyze schema shape settings.recursionLimit = .ok set)
    (hd : DistinctFingerprints set.selections)
    (hc : compile schema settings shape = .ok query) :
    ∃ lifted fragments, Compiled set lifted fragments query := by
  obtain ⟨set', lifted, fragments, ha', -, he, hlift, -⟩ := compile_stages hc
  rw [ha] at ha'
  cases ha'
  obtain ⟨hl, hsel, hdef, hset⟩ := lift_extracted ha he hlift
  refine ⟨lifted, fragments, (Analysis.analyze_faithful ha).noSpreads, hd, he, hl, hsel, hdef, ?_⟩
  rw [hset]

/-- A compilation from its steps. -/
theorem compile_of_steps {schema : Schema} {settings : Settings} {shape : OperationShape}
    {set extracted set' : SelectionSet} {fragments fragments' : List FragmentDefinition}
    {declared : Declarations} {document : String}
    (ha : Analysis.analyze schema shape settings.recursionLimit = .ok set)
    (hx : extract set = .ok (extracted, fragments))
    (hl : lift extracted fragments = (set', fragments', declared))
    (hd : Document.synthesize set' fragments' declared settings.pretty = .ok document) :
    compile schema settings shape =
      .ok ⟨document, set'.operationName, declared, set', fragments', shape.key⟩ := by
  unfold compile
  rw [ha]
  simp only [bind, Except.bind]
  rw [hx]
  simp only [hl, hd]
  rfl

/-! ## The hero asked for twice, compiled -/

/-- The variables of the compiled hero shape. -/
def heroVariables : List VariableDeclaration :=
  [⟨"hero_id", .nonNull .id, "id"⟩, ⟨"hero_id_2", .nonNull .id, "id"⟩]

/-- The selections of the compiled hero shape. -/
def heroCompiled : SelectionSet :=
  heroOperation [.spread "heroFields" "Hero"] (.documentVariable "hero_id")
    (.documentVariable "hero_id_2")

def heroFragments : List FragmentDefinition := [⟨"heroFields", "Hero", heroContent⟩]

/-- The compiled hero shape. -/
def heroQuery : CompiledQuery where
  document := Document.render true (Document.pieces heroCompiled heroFragments heroVariables)
  operationName := none
  declarations := heroVariables
  selectionSet := heroCompiled
  fragments := heroFragments
  key := heroShape.key

theorem lift_hero : lift (heroOperation [.spread "heroFields" "Hero"] (.parameter "id")
      (.parameter "id")) heroFragments = (heroCompiled, heroFragments, heroVariables) := by
  cbv

theorem synthesize_hero : Document.synthesize heroCompiled heroFragments heroVariables true =
    .ok heroQuery.document := by
  simp [Document.synthesize, heroCompiled, heroFragments, heroOperation, heroContent, heroField,
    Document.checkResolved, Document.unresolvedArgument?, heroQuery, bind, Except.bind, pure,
    Except.pure]

theorem compile_hero : compile heroSchema {} heroShape = .ok heroQuery :=
  compile_of_steps analyze_hero extract_hero lift_hero synthesize_hero

end QueryShapes
