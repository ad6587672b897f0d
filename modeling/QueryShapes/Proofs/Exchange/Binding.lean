/-
  The values that a server is sent.

  Binding gives every declared variable the value of its parameter, if all these
  values are admitted (`exists_bindVariables_iff`, `bindVariables_eq_ok`).  A
  compiled tree whose variables are replaced by what they are bound to is the
  analyzed tree with its parameters replaced by what the caller gave
  (`bind_compile`).
-/
import QueryShapes.Exchange.Execution
import QueryShapes.Proofs.Compilation

namespace QueryShapes

open Selection Fragments Lifting Extraction

/-! ## Trees with values -/

/-- What a server takes for an argument: what is written in the document, or a value that is sent
    along. -/
inductive SuppliedValue where
  | written (value : ArgumentValue)
  | sent (value : Json)

/-- An argument with the value that a server takes for it. -/
structure SuppliedArgument where
  name : String
  type : FieldType
  value : SuppliedValue
  declaredDefault : Option Literal

/-- A field with the values that a server takes for its arguments. -/
structure SuppliedField where
  name : String
  aliasName : Option String
  parentType : String
  type : FieldType
  arguments : List SuppliedArgument
  injected : Bool

/-- A selection with the values that a server takes for all arguments. -/
inductive SuppliedSelection where
  | field (field : SuppliedField) (selections : List SuppliedSelection)
  | spread (fragmentName typeCondition : String)
  | inline (typeCondition : String) (selections : List SuppliedSelection)
  | marker (name : Option String) (typeCondition : String) (selections : List SuppliedSelection)

def FieldArgument.supply (value : ArgumentValue → SuppliedValue) (a : FieldArgument) :
    SuppliedArgument :=
  ⟨a.name, a.type, value a.value, a.declaredDefault⟩

def Field.supply (value : ArgumentValue → SuppliedValue) (f : Field) : SuppliedField :=
  ⟨f.name, f.aliasName, f.parentType, f.type, f.arguments.map (FieldArgument.supply value),
    f.injected⟩

/-- The tree with a value for every argument. -/
def Selection.supply (value : ArgumentValue → SuppliedValue) :
    List Selection → List SuppliedSelection
  | [] => []
  | .field f subs :: rest => .field (f.supply value) (supply value subs) :: supply value rest
  | .spread name condition :: rest => .spread name condition :: supply value rest
  | .inline condition subs :: rest => .inline condition (supply value subs) :: supply value rest
  | .marker name condition subs :: rest =>
    .marker name condition (supply value subs) :: supply value rest

/-- A variable's value is what it is bound to; everything else is written. -/
def sentFor (bound : Json.Object) : ArgumentValue → SuppliedValue
  | .documentVariable name =>
    match bound.get? name with
    | some value => .sent value
    | none => .written (.documentVariable name)
  | value => .written value

/-- A parameter's value is what the caller gave for it; everything else is written. -/
def givenFor (parameters : Json.Object) : ArgumentValue → SuppliedValue
  | .parameter name =>
    match parameters.get? name with
    | some value => .sent value
    | none => .written (.parameter name)
  | value => .written value

/-- Changing the values of a tree before they are supplied. -/
theorem Selection.supply_mapValues (value : ArgumentValue → SuppliedValue)
    (g : ArgumentValue → ArgumentValue) (selections : List Selection) :
    supply value (mapValues g selections) = supply (fun v => value (g v)) selections := by
  have hf : ∀ f : Field, (f.mapValues g).supply value = f.supply fun v => value (g v) := by
    intro f
    unfold Field.supply Field.mapValues
    rw [List.map_map]
    rfl
  induction selections using listInduction with
  | nil => simp [mapValues, supply]
  | field f subs rest ihs ihr => rw [mapValues, supply, supply, hf, ihs, ihr]
  | spread name condition rest ihr => rw [mapValues, supply, supply, ihr]
  | inline condition subs rest ihs ihr => rw [mapValues, supply, supply, ihs, ihr]
  | marker name condition subs rest ihs ihr => rw [mapValues, supply, supply, ihs, ihr]

/-- Only what is supplied for the values of the tree matters. -/
theorem Selection.supply_congr {value value' : ArgumentValue → SuppliedValue}
    {selections : List Selection}
    (h : ∀ a ∈ allArguments selections, value a.value = value' a.value) :
    supply value selections = supply value' selections := by
  induction selections using listInduction with
  | nil => simp [supply]
  | field f subs rest ihs ihr =>
    simp only [allArguments_field, List.mem_append] at h
    have hf : f.supply value = f.supply value' := by
      unfold Field.supply
      have hargs : f.arguments.map (FieldArgument.supply value) =
          f.arguments.map (FieldArgument.supply value') := by
        refine List.map_congr_left fun a ha => ?_
        unfold FieldArgument.supply
        rw [h a (Or.inl ha)]
      rw [hargs]
    rw [supply, supply, hf, ihs fun a ha => h a (Or.inr (Or.inl ha)),
      ihr fun a ha => h a (Or.inr (Or.inr ha))]
  | spread name condition rest ihr =>
    rw [allArguments_spread] at h
    rw [supply, supply, ihr h]
  | inline condition subs rest ihs ihr =>
    simp only [allArguments_inline, List.mem_append] at h
    rw [supply, supply, ihs fun a ha => h a (Or.inl ha), ihr fun a ha => h a (Or.inr ha)]
  | marker name condition subs rest ihs ihr =>
    simp only [allArguments_marker, List.mem_append] at h
    rw [supply, supply, ihs fun a ha => h a (Or.inl ha), ihr fun a ha => h a (Or.inr ha)]

/-! ## Binding -/

/-- The caller gave a value for the parameter that the type admits. -/
def Admits (schema : Schema) (parameters : Json.Object) (type : FieldType) (parameter : String) :
    Prop :=
  ∃ value, parameters.get? parameter = some value ∧ schema.acceptsValue type value = true

variable {schema : Schema} {parameters : Json.Object}

/-- Binding succeeds exactly when every declaration has an admitted value. -/
theorem exists_bindVariables_iff {bound : Json.Object} {declared : List VariableDeclaration} :
    (∃ bound', bindVariables schema parameters bound declared = .ok bound') ↔
      ∀ d ∈ declared, Admits schema parameters d.type d.parameter := by
  induction declared generalizing bound with
  | nil => simp [bindVariables]
  | cons d rest ih =>
    rw [List.forall_mem_cons]
    unfold Admits
    rw [bindVariables]
    cases hget : parameters.get? d.parameter with
    | none => simp
    | some value =>
      dsimp only
      cases haccepts : schema.acceptsValue d.type value with
      | false => simp [haccepts]
      | true =>
        rw [if_pos rfl, ih]
        simp [haccepts, Admits]

/-- What binding leaves: an entry for every declaration, in order, with the value of its
    parameter. -/
theorem bindVariables_eq_ok {bound bound' : Json.Object} {declared : List VariableDeclaration}
    (h : bindVariables schema parameters bound declared = .ok bound')
    (hn : (bound.keys ++ declared.map (·.name)).Nodup) :
    bound'.keys = bound.keys ++ declared.map (·.name) ∧
      (∀ d ∈ declared, bound'.get? d.name = parameters.get? d.parameter) ∧
      ∀ name ∈ bound.keys, bound'.get? name = bound.get? name := by
  induction declared generalizing bound with
  | nil =>
    simp only [bindVariables, Except.ok.injEq] at h
    subst h
    simp
  | cons d rest ih =>
    rw [bindVariables] at h
    split at h
    · cases h
    · rename_i value hget
      split at h
      · rw [List.map_cons] at hn
        have hfree : bound.contains d.name = false := by
          rw [Bool.eq_false_iff]
          intro hc
          have hmem := Entries.mem_keys_iff.mpr hc
          exact (List.nodup_append.mp hn).2.2 _ hmem _ List.mem_cons_self rfl
        have hkeys := Entries.keys_insert_of_not_contains value hfree
        have hassoc : (bound.insert d.name value).keys ++ rest.map (·.name) =
            bound.keys ++ d.name :: rest.map (·.name) := by
          rw [hkeys, List.append_assoc, List.singleton_append]
        obtain ⟨hk, hv, hb⟩ := ih h (hassoc ▸ hn)
        refine ⟨hk.trans hassoc, ?_, ?_⟩
        · intro e he
          rcases List.mem_cons.mp he with rfl | he
          · rw [hb e.name (by rw [hkeys]; simp), Entries.get?_insert_self, hget]
          · exact hv e he
        · intro name hname
          rw [hb name (by rw [hkeys]; simp [hname]), Entries.get?_insert_of_ne]
          rintro rfl
          rw [Entries.mem_keys_iff, hfree] at hname
          cases hname
      · cases h

/-! ## A compiled operation -/

/-- A compiled operation is bound exactly when every parameter of the analyzed tree has a value
    that its argument admits.  Every variable of the document then has one entry, there are no
    others, and the server takes the caller's values where the analyzed tree has parameters. -/
theorem bind_compile {settings : Settings} {shape : OperationShape} {query : CompiledQuery}
    {set : SelectionSet}
    (ha : Analysis.analyze schema shape settings.recursionLimit = .ok set)
    (hd : DistinctFingerprints set.selections)
    (hc : compile schema settings shape = .ok query) :
    ((∃ bound, query.bind schema parameters = .ok bound) ↔
        ∀ a ∈ allArguments set.selections, ∀ parameter, a.value = .parameter parameter →
          Admits schema parameters a.type parameter) ∧
      ∀ bound, query.bind schema parameters = .ok bound →
        bound.keys.Nodup ∧
        (∀ name, name ∈ bound.keys ↔
          ∃ a ∈ documentArguments query.selectionSet.selections query.fragments,
            a.value = .documentVariable name) ∧
        supply (sentFor bound) (putBack query.fragments query.selectionSet.rootType
            query.selectionSet.selections) =
          supply (givenFor parameters) (inlineMarkers set.rootType set.selections) := by
  obtain ⟨lifted, fragments, h⟩ := compile_eq_ok ha hd hc
  refine ⟨?_, fun bound hb => ?_⟩
  · unfold CompiledQuery.bind
    rw [exists_bindVariables_iff]
    constructor
    · intro hall a ha p hp
      obtain ⟨d, hd, htype, rfl⟩ := h.mem_declarations_iff.mpr ⟨a, ha, rfl, hp⟩
      exact htype ▸ hall d hd
    · intro hall d hd
      obtain ⟨a, ha, htype, hp⟩ := h.mem_declarations_iff.mp ⟨d, hd, rfl, rfl⟩
      exact htype ▸ hall a ha _ hp
  · have hadmits := exists_bindVariables_iff.mp ⟨bound, hb⟩
    obtain ⟨hkeys, hvalues, -⟩ := bindVariables_eq_ok hb h.names
    refine ⟨hkeys ▸ h.names, fun name => ?_, ?_⟩
    · rw [hkeys]
      change name ∈ query.declarations.map (·.name) ↔ _
      rw [← h.variableNames_eq, mem_variableNames_iff]
    · rw [← h.putBack_eq, supply_mapValues]
      refine supply_congr fun a hmem => ?_
      have hmem := mem_documentArguments_of_putBack hmem
      cases hv : a.value with
      | documentVariable name =>
        have hname : name ∈ query.declarations.map (·.name) := by
          rw [← h.variableNames_eq]
          exact mem_variableNames_iff.mpr ⟨a, hmem, hv⟩
        obtain ⟨d, hd, rfl⟩ := List.mem_map.mp hname
        obtain ⟨value, hvalue, -⟩ := hadmits d hd
        rw [restoreValue_of_mem h.names hd, sentFor, givenFor, hvalues d hd, hvalue]
      | parameter p => exact absurd hv (h.value_ne_parameter hmem p)
      | literal l => rfl
      | default => rfl
      | unbound => rfl

theorem bind_hero : heroQuery.bind heroSchema [("id", .str "1000")] =
    .ok [("hero_id", .str "1000"), ("hero_id_2", .str "1000")] := by
  change bindVariables _ _ [] heroVariables = _
  cbv

/-- The hero's identifier is sent for both variables that ask for it. -/
theorem bind_compile_hero :
    Analysis.analyze heroSchema heroShape 512 = .ok heroAnalyzed ∧
      DistinctFingerprints heroAnalyzed.selections ∧
      compile heroSchema {} heroShape = .ok heroQuery ∧
      heroQuery.bind heroSchema [("id", .str "1000")] =
        .ok [("hero_id", .str "1000"), ("hero_id_2", .str "1000")] ∧
      supply (sentFor [("hero_id", .str "1000"), ("hero_id_2", .str "1000")])
          (putBack heroFragments "Query" heroCompiled.selections) =
        supply (givenFor [("id", .str "1000")])
          (inlineMarkers "Query" heroAnalyzed.selections) :=
  ⟨analyze_hero, distinctFingerprints_hero, compile_hero, bind_hero,
    ((bind_compile analyze_hero distinctFingerprints_hero compile_hero).2 _ bind_hero).2.2⟩

end QueryShapes
