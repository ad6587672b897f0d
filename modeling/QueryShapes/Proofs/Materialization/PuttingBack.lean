/-
  Extraction and lifting do not change what is materialized.

  A marker may stay and be entered under a condition, be spliced into its parent
  with no condition left, or stand in a definition that a spread is looked up
  for.  At an object whose type is the static type or below it the conditions
  that are spliced away hold anyway (`applying_inlineMarkers`), so two trees that
  are the same once everything is put back ask for the same fields there, and at
  every slot both give the same value or the same error (`complete_congr`).
-/
import QueryShapes.Proofs.Document.Merging
import QueryShapes.Proofs.Materialization.Completion

namespace QueryShapes.Materialization

open Selection Fragments Lifting Extraction Analysis

/-! ## Truthful data -/

/-- The composite types and objects at which a value of a declared type stands, itself or with its
    items. -/
inductive Holds (schema : Schema) : FieldType → Json → String → Json.Object → Prop
  | object {name : String} {members : Json.Object} (hname : schema.isComposite name = true) :
      Holds schema (.named name) (.obj members) name members
  | nonNull {inner : FieldType} {value : Json} {name : String} {members : Json.Object}
      (h : Holds schema inner value name members) :
      Holds schema (.nonNull inner) value name members
  | item {item : FieldType} {v : Json} {items : List Json} {name : String}
      {members : Json.Object} (hv : v ∈ items) (h : Holds schema item v name members) :
      Holds schema (.list item) (.arr items) name members

/-- The objects that the fields of a list of selections lead to, each with the static type that it
    is reached at. -/
inductive Reached (schema : Schema) :
    String → List Selection → Json.Object → String → Json.Object → Prop
  | root {type : String} {selections : List Selection} {members : Json.Object} :
      Reached schema type selections members type members
  | under {type type' type'' : String} {selections : List Selection}
      {members members' members'' : Json.Object} {p : CollectedField} {v : Json}
      (hp : p ∈ applying schema (typename? members) type selections)
      (hv : members.get? p.1.responseKey = some v) (h : Holds schema p.1.type v type' members')
      (hrest : Reached schema type' p.2 members' type'' members'') :
      Reached schema type selections members type'' members''

/-- An object that says no type, the static type that it stands at, or a subtype of it. -/
def TellsTypeOf (schema : Schema) (type : String) (members : Json.Object) : Prop :=
  ∀ name, typename? members = some name → name = type ∨ schema.isSubtype type name = true

/-- Every object that is reached from an object tells its type truthfully. -/
def TruthfulBelow (schema : Schema) (type : String) (selections : List Selection)
    (members : Json.Object) : Prop :=
  ∀ type' object, Reached schema type selections members type' object →
    TellsTypeOf schema type' object

/-- Data in which every object that is reached from the root tells its type truthfully. -/
def Truthful (schema : Schema) (set : SelectionSet) (data : Json) : Prop :=
  ∀ members, data = .obj members → TruthfulBelow schema set.rootType set.selections members

/-- An object tells its static type truthfully exactly if selections on that type apply to it. -/
theorem applies_self_iff {schema : Schema} {type : String} {members : Json.Object} :
    applies schema type type (typename? members) = true ↔ TellsTypeOf schema type members := by
  unfold applies TellsTypeOf
  cases typename? members with
  | none => simp
  | some name =>
    simp only [Option.getD_some, Bool.or_eq_true, beq_iff_eq, Option.some.injEq]
    constructor
    · rintro h name' rfl
      exact h
    · intro h
      exact h name rfl

/-! ## The fields that apply, with fragments put back -/

section Applying

variable {schema : Schema} {typename : Option String}

/-- Inside a fragment that applies, its own condition applies. -/
theorem applies_self_of_applies {condition parent : String}
    (h : applies schema condition parent typename = true) :
    applies schema condition condition typename = true := by
  cases typename with
  | none => simp [applies]
  | some name => exact h

/-- Putting markers back leaves the fields that apply as they are, at an object to which selections
    on the static type apply. -/
theorem applying_inlineMarkers {parent : String}
    (hself : applies schema parent parent typename = true) (selections : List Selection) :
    applying schema typename parent (inlineMarkers parent selections) =
      (applying schema typename parent selections).map fun p =>
        (p.1, inlineMarkers p.1.type.innerName p.2) := by
  induction selections using listInduction generalizing parent with
  | nil => simp [inlineMarkers, applying]
  | field f subs rest _ ihr => simp [inlineMarkers, applying, ihr hself]
  | spread name condition rest ihr => simp [inlineMarkers, applying, ihr hself]
  | inline condition subs rest ihs ihr =>
    cases happlies : applies schema condition parent typename with
    | true =>
      simp [inlineMarkers, applying, happlies, ihs (applies_self_of_applies happlies), ihr hself]
    | false => simp [inlineMarkers, applying, happlies, ihr hself]
  | marker name condition subs rest ihs ihr =>
    by_cases hc : condition = parent
    · -- the marker is spliced into the list, and its condition is the one that applies anyway
      subst hc
      rw [inlineMarkers, if_pos rfl, applying_append, applying, if_pos hself, ihs hself,
        ihr hself, List.map_append]
    · cases happlies : applies schema condition parent typename with
      | true =>
        simp [inlineMarkers, applying, happlies, hc, ihs (applies_self_of_applies happlies),
          ihr hself]
      | false => simp [inlineMarkers, applying, happlies, hc, ihr hself]

theorem applying_mapValues (g : ArgumentValue → ArgumentValue) (parent : String)
    (selections : List Selection) :
    applying schema typename parent (mapValues g selections) =
      (applying schema typename parent selections).map fun p =>
        (p.1.mapValues g, mapValues g p.2) := by
  induction selections using listInduction generalizing parent with
  | nil => simp [mapValues, applying]
  | field f subs rest _ ihr => simp [mapValues, applying, ihr]
  | spread name condition rest ihr => simp [mapValues, applying, ihr]
  | inline condition subs rest ihs ihr =>
    cases happlies : applies schema condition parent typename <;>
      simp [mapValues, applying, happlies, ihs, ihr]
  | marker name condition subs rest ihs ihr =>
    cases happlies : applies schema condition parent typename <;>
      simp [mapValues, applying, happlies, ihs, ihr]

/-- Without spreads the steps of a list are the fields that apply. -/
theorem steps_of_noSpreads {c : Context} {members : Json.Object} {parent : String}
    {selections : List Selection} (h : allSpreads selections = []) :
    c.steps members parent selections =
      (applying c.schema (typename? members) parent selections).map Step.ofField := by
  have hwith : ∀ spread, stepsWith c (typename? members) spread parent selections =
      (applying c.schema (typename? members) parent selections).map Step.ofField := by
    intro spread
    induction selections using listInduction generalizing parent with
    | nil => simp [stepsWith, applying]
    | field f subs rest _ ihr =>
      simp only [allSpreads, List.append_eq_nil_iff] at h
      simp [stepsWith, applying, ihr h.2, Step.ofField]
    | spread name condition rest ihr =>
      rw [allSpreads] at h
      cases h
    | inline condition subs rest ihs ihr =>
      simp only [allSpreads, List.append_eq_nil_iff] at h
      cases happlies : applies c.schema condition parent (typename? members) <;>
        simp [stepsWith, applying, happlies, ihs h.1, ihr h.2]
    | marker name condition subs rest ihs ihr =>
      simp only [allSpreads, List.append_eq_nil_iff] at h
      cases happlies : applies c.schema condition parent (typename? members) <;>
        simp [stepsWith, applying, happlies, ihs h.1, ihr h.2]
  rw [Context.steps, Context.spreadDepth, stepsTo]
  exact hwith _

end Applying

/-! ## Trees that are alike -/

/-- A tree without spreads, and one whose spreads have definitions, that are the same once all
    fragments are put back on a type and the values of arguments are changed. -/
structure Alike (fragments : List FragmentDefinition) (g : ArgumentValue → ArgumentValue)
    (type : String) (tree other : List Selection) : Prop where
  noSpreads : allSpreads tree = []
  resolves : Resolves fragments other
  same : inlineMarkers type tree = mapValues g (putBack fragments type other)

/-- Two fields that differ in the values of their arguments, over trees that are alike. -/
structure AlikeFields (fragments : List FragmentDefinition) (g : ArgumentValue → ArgumentValue)
    (p q : CollectedField) : Prop where
  field : p.1 = q.1.mapValues g
  below : Alike fragments g p.1.type.innerName p.2 q.2

section Congruence

variable {schema : Schema} {fragments : List FragmentDefinition}
  {g : ArgumentValue → ArgumentValue}

theorem mem_allSpreads_of_mem_applying {typename : Option String} {parent : String}
    {selections : List Selection} {p : CollectedField}
    (hp : p ∈ applying schema typename parent selections) {x : String × String}
    (hx : x ∈ allSpreads p.2) : x ∈ allSpreads selections := by
  induction selections using listInduction generalizing parent with
  | nil => simp [applying] at hp
  | field f subs rest _ ihr =>
    rw [applying, List.mem_cons] at hp
    rw [allSpreads, List.mem_append]
    rcases hp with rfl | hp
    · exact Or.inl hx
    · exact Or.inr (ihr hp)
  | spread name condition rest ihr =>
    rw [applying] at hp
    rw [allSpreads]
    exact List.mem_cons_of_mem _ (ihr hp)
  | inline condition subs rest ihs ihr =>
    rw [applying, List.mem_append] at hp
    rw [allSpreads, List.mem_append]
    refine hp.imp (fun hp => ?_) ihr
    split at hp
    · exact ihs hp
    · cases hp
  | marker name condition subs rest ihs ihr =>
    rw [applying, List.mem_append] at hp
    rw [allSpreads, List.mem_append]
    refine hp.imp (fun hp => ?_) ihr
    split at hp
    · exact ihs hp
    · cases hp

/-- At an object that tells its type truthfully, trees that are alike ask for fields that are. -/
theorem Alike.fields (hac : Acyclic fragments)
    (hb : ∀ d ∈ fragments, Resolves fragments d.selections) {type : String}
    {tree other : List Selection} (h : Alike fragments g type tree other)
    {members : Json.Object} (ht : TellsTypeOf schema type members) :
    ∃ fields : List CollectedField,
      Context.steps ⟨schema, fragments⟩ members type other = fields.map Step.ofField ∧
      List.Forall₂ (AlikeFields fragments g)
        (applying schema (typename? members) type tree) fields := by
  have hself := applies_self_iff.mpr ht
  have hlists : Lists schema fragments (typename? members) type other
      (Context.steps ⟨schema, fragments⟩ members type other) :=
    Context.lists_steps hac hb h.resolves members type
  obtain ⟨fields, hsteps, hfields, hresolves⟩ := hlists
  refine ⟨fields, hsteps, ?_⟩
  have hsame : (applying schema (typename? members) type tree).map
        (fun p => (p.1, inlineMarkers p.1.type.innerName p.2)) =
      fields.map fun q => (q.1.mapValues g,
        mapValues g (putBack fragments q.1.type.innerName q.2)) := by
    rw [← applying_inlineMarkers hself, h.same, applying_mapValues, putBack,
      applying_inlineMarkers hself, hfields, List.map_map, List.map_map]
    rfl
  have hspreads : ∀ p ∈ applying schema (typename? members) type tree, allSpreads p.2 = [] := by
    intro p hp
    refine List.eq_nil_iff_forall_not_mem.mpr fun x hx => ?_
    have := mem_allSpreads_of_mem_applying hp hx
    rw [h.noSpreads] at this
    cases this
  have hpairs := hsame
  rw [← List.forall₂_eq_eq_eq, List.forall₂_map_left_iff, List.forall₂_map_right_iff] at hpairs
  generalize applying schema (typename? members) type tree = collected at hpairs hspreads
  clear hsame hfields hsteps
  induction hpairs with
  | nil => exact .nil
  | @cons p q ps qs hpq _ ih =>
    obtain ⟨hfield, hbelow⟩ := Prod.mk.inj hpq
    have htype : p.1.type = q.1.type := by
      rw [hfield]
      rfl
    refine .cons ⟨hfield, hspreads p List.mem_cons_self, hresolves q List.mem_cons_self, ?_⟩
      (ih (fun q hq => hresolves q (List.mem_cons_of_mem _ hq))
        fun p hp => hspreads p (List.mem_cons_of_mem _ hp))
    rw [htype] at hbelow ⊢
    exact hbelow

/-- Leaves are completed without looking at selections. -/
theorem complete_leaf_congr {path : Path} {type : FieldType}
    (htype : isLeaf schema type = true) {as bs : List Selection} {value slot : Json} :
    complete ⟨schema, []⟩ path type as value slot =
      complete ⟨schema, fragments⟩ path type bs value slot := by
  cases type with
  | nonNull inner => cases htype
  | list item => cases htype
  | named name =>
    have hname : schema.isComposite name = false := by simpa [isLeaf] using htype
    unfold Schema.isComposite at hname
    cases hd : schema.type? name with
    | none => cases value <;> simp [complete, hd]
    | some d =>
      rw [hd] at hname
      cases d <;> cases value <;> simp_all [complete, TypeDefinition.isComposite]
  | _ => cases value <;> simp [complete]

/-- Fields that are alike do the same at an object, if what it has for them is completed alike. -/
theorem AlikeFields.step {c c' : Context} {members : Json.Object} {p q : CollectedField}
    (h : AlikeFields fragments g p q)
    (hvalue : ∀ v, members.get? p.1.responseKey = some v → ∀ path slot,
      complete c path p.1.type p.2 v slot = complete c' path p.1.type q.2 v slot) :
    Step.Alike c c' members members (Step.ofField p) (Step.ofField q) := by
  obtain ⟨f, subs⟩ := p
  obtain ⟨f', subs'⟩ := q
  -- only the values of arguments differ, and they are not looked at
  obtain rfl : f = f'.mapValues g := h.field
  refine .field rfl rfl rfl rfl rfl fun _ v v' hv hv' => ?_
  rw [hv] at hv'
  cases hv'
  exact hvalue v hv

/-- The steps of trees that are alike write the same at an object, if the values below it are
    completed alike. -/
theorem writeSteps_alike (hac : Acyclic fragments)
    (hb : ∀ d ∈ fragments, Resolves fragments d.selections) {type : String}
    {tree other : List Selection} (h : Alike fragments g type tree other)
    {members : Json.Object} (ht : TruthfulBelow schema type tree members)
    (ih : ∀ key v, members.get? key = some v → ∀ path (type : FieldType) tree other slot,
      Alike fragments g type.innerName tree other →
      (∀ name object, Holds schema type v name object → TruthfulBelow schema name tree object) →
        complete ⟨schema, []⟩ path type tree v slot =
          complete ⟨schema, fragments⟩ path type other v slot)
    (path : Path) (output : Json.Object) :
    writeSteps ⟨schema, []⟩ path members (Context.steps ⟨schema, []⟩ members type tree) output =
      writeSteps ⟨schema, fragments⟩ path members
        (Context.steps ⟨schema, fragments⟩ members type other) output := by
  obtain ⟨fields, hsteps, hfields⟩ := h.fields hac hb (ht _ _ .root)
  rw [steps_of_noSpreads h.noSpreads, hsteps]
  have hmem := (List.forall₂_and_left _ _).mpr ⟨fun p hp => hp, hfields⟩
  refine writeSteps_congr (List.forall₂_map_left_iff.mpr (List.forall₂_map_right_iff.mpr
    (hmem.imp fun p q hpq => hpq.2.step fun v hv path slot => ?_))) path output
  refine ih _ v hv path p.1.type p.2 q.2 slot hpq.2.below
    fun name object hholds type' object' hr => ?_
  exact ht type' object' (.under hpq.1 hv hholds hr)

/-- Trees that are alike complete a value alike, whether it is accepted or refused. -/
theorem complete_congr (hac : Acyclic fragments)
    (hb : ∀ d ∈ fragments, Resolves fragments d.selections) {path : Path} {type : FieldType}
    {tree other : List Selection} {value slot : Json}
    (h : Alike fragments g type.innerName tree other)
    (ht : ∀ name object, Holds schema type value name object →
      TruthfulBelow schema name tree object) :
    complete ⟨schema, []⟩ path type tree value slot =
      complete ⟨schema, fragments⟩ path type other value slot := by
  induction hn : sizeOf value using Nat.strongRecOn
    generalizing path type tree other value slot with
  | ind n ih =>
    -- lists and objects go down in the value, a non-null type stays at the same value
    induction type with
    | nonNull inner iht =>
      rw [complete, complete, iht h fun name object hholds => ht name object (.nonNull hholds)]
    | list item _ =>
      cases value with
      | arr items =>
        have hitems : ∀ v ∈ items, ∀ path slot, complete ⟨schema, []⟩ path item tree v slot =
            complete ⟨schema, fragments⟩ path item other v slot := by
          intro v hv path slot
          refine ih (sizeOf v) ?_ h (fun name object hholds => ht name object (.item hv hholds)) rfl
          have := List.sizeOf_lt_of_mem hv
          rw [← hn, Json.arr.sizeOf_spec]
          omega
        simp only [complete, completeItems_congr (List.forall₂_same.mpr hitems)]
      | _ => simp [complete]
    | named name =>
      cases hname : schema.isComposite name with
      | true =>
        cases value with
        | obj members =>
          have hbelow : TruthfulBelow schema name tree members := ht name members (.object hname)
          have h : Alike fragments g name tree other := h
          have hsteps := fun output => writeSteps_alike hac hb h hbelow
            (fun key v hv path type tree other slot h ht => ih (sizeOf v) (by
              have := Json.sizeOf_get?_lt hv
              rw [← hn, Json.obj.sizeOf_spec]
              omega) h ht rfl) path output
          rw [complete_composite hname, complete_composite hname]
          simp only [hsteps]
        | _ => rw [complete_composite hname, complete_composite hname]
      | false =>
        have hleaf : isLeaf schema (.named name) = true := by simp [isLeaf, hname]
        exact complete_leaf_congr hleaf
    | _ => exact complete_leaf_congr rfl

end Congruence

/-! ## Compiled operations -/

/-- The analyzed tree and the compiled one are alike on the root type. -/
theorem Alike.of_compiled {set : SelectionSet} {lifted : Lifted}
    {fragments : List FragmentDefinition} {query : CompiledQuery}
    (h : Compiled set lifted fragments query) :
    Alike query.fragments (restoreValue query.declarations) set.rootType set.selections
      query.selectionSet.selections :=
  ⟨h.noSpreads, h.resolves, by rw [← h.rootType, h.putBack_eq, h.rootType]⟩

/-- On truthful data a compiled operation with its fragment definitions is materialized as the
    analyzed tree before extraction is: to the same value, with its keys in the same order, or to
    the same error at the same path. -/
theorem materialize_compiled {schema : Schema} {settings : Settings} {shape : OperationShape}
    {set : SelectionSet} {query : CompiledQuery}
    (ha : analyze schema shape settings.recursionLimit = .ok set)
    (hd : DistinctFingerprints set.selections)
    (hc : compile schema settings shape = .ok query) {data : Json}
    (ht : Truthful schema set data) :
    materialize schema query.selectionSet query.fragments data = materialize schema set [] data := by
  obtain ⟨lifted, fragments, h⟩ := compile_eq_ok ha hd hc
  cases data with
  | obj members =>
    have hsteps := fun path output => writeSteps_alike h.acyclic h.bodies (.of_compiled h)
      (ht members rfl) (fun _ _ _ _ _ _ _ _ h' ht' => complete_congr h.acyclic h.bodies h' ht')
      path output
    simp only [materialize, hsteps, h.rootType]
  | _ => rfl

/-- A hero who tells its type. -/
def heroData : Json :=
  .obj [("hero", .obj [("__typename", .str "Hero"), ("name", .str "Luke")])]

theorem truthful_hero : Truthful heroSchema heroAnalyzed heroData := by
  intro members hm type object h
  cases hm
  cases h with
  | root =>
    intro name hname
    cases hname
  | @under _ type' _ _ _ members' _ p v hp hv hholds hrest =>
    have hfield : ∃ value,
        p = (heroField value, [Selection.marker (some "heroFields") "Hero" heroContent]) := by
      refine ⟨.parameter "id", ?_⟩
      simp only [heroAnalyzed, heroOperation, applying, List.append_nil, List.mem_cons,
        List.mem_ite_nil_right, List.not_mem_nil, or_false] at hp
      exact hp.elim id And.right
    obtain ⟨value, rfl⟩ := hfield
    cases hv
    cases hholds
    cases hrest with
    | root =>
      intro name hname
      cases hname
      exact Or.inl rfl
    | @under _ _ _ _ _ _ _ q w hq hw hholds _ =>
      have hname : q.1.type = .string := by
        simp only [heroContent, applying, List.append_nil, List.mem_cons, List.mem_ite_nil_right,
          List.not_mem_nil, or_false] at hq
        rw [hq.2]
      rw [hname] at hholds
      cases hholds

theorem materialize_compiled_hero :
    analyze heroSchema heroShape 512 = .ok heroAnalyzed ∧
      DistinctFingerprints heroAnalyzed.selections ∧
      compile heroSchema {} heroShape = .ok heroQuery ∧ Truthful heroSchema heroAnalyzed heroData ∧
      materialize heroSchema heroQuery.selectionSet heroQuery.fragments heroData =
        materialize heroSchema heroAnalyzed [] heroData :=
  ⟨analyze_hero, distinctFingerprints_hero, compile_hero, truthful_hero,
    materialize_compiled analyze_hero distinctFingerprints_hero compile_hero truthful_hero⟩

end QueryShapes.Materialization
