/-
  Materialization of compiled operations never calls a response malformed.

  There are three causes for that error apart from data that is no object: a
  spread without a definition, definitions that spread each other in a circle, and
  a field of a type that no response can hold.  Extraction defines what it spreads
  and its definitions form no circle, and on a built schema every field that
  analysis accepts has a type that is defined.  If this is never the type of an
  input object, then neither of the errors that tell of a defect is ever reported:
  not by compilation, and not by materialization (`defects_unreachable`).

  That definitions form no circle rests on the fingerprints of the reusable
  fragments: those of different content are different (`DistinctFingerprints`).
-/
import QueryShapes.Proofs.Document.Defects
import QueryShapes.Proofs.Document.Merging
import QueryShapes.Proofs.Materialization.Typing
import QueryShapes.Proofs.Schema.Building

namespace QueryShapes

open Selection Fragments Extraction Lifting

/-- The error of a response that the selections cannot be held against. -/
def MaterializeError.IsMalformed : MaterializeError → Prop
  | .malformedResponse _ => True
  | _ => False

/-- A completion that calls nothing malformed. -/
abbrev NotMalformed {α : Type} (x : Except MaterializeError α) : Prop :=
  Avoids MaterializeError.IsMalformed x

/-! ## Types of a response -/

/-- A type that values of a response can have: it is built in, or defined and no input object. -/
def FieldType.IsOutput (s : Schema) : FieldType → Prop
  | .named name =>
    ∃ d, s.type? name = some d ∧ ∀ described fields, d ≠ .inputObject described fields
  | .list item => item.IsOutput s
  | .nonNull inner => inner.IsOutput s
  | .string | .int | .float | .id | .boolean => True

namespace Schema

/-- No field of an object type or interface has the type of an input object. -/
def NoInputFields (s : Schema) : Prop :=
  ∀ e ∈ s.types, ∀ t, e.2.objectType? = some t → ∀ f ∈ t.fields, ∀ described fields,
    s.type? f.2.type.innerName ≠ some (.inputObject described fields)

theorem isOutput_of_innerName {s : Schema} {type : FieldType} {d : TypeDefinition}
    (hd : s.type? type.innerName = some d)
    (hi : ∀ described fields, d ≠ .inputObject described fields) : type.IsOutput s := by
  induction type with
  | named name => exact ⟨d, hd, hi⟩
  | list item ih => exact ih hd
  | nonNull inner ih => exact ih hd
  | _ => trivial

/-- The fields of a built schema have types that values of a response can have. -/
theorem isOutput_of_field? {b : SchemaBuilder} {s : Schema} (hb : b.build = .ok s)
    (hi : s.NoInputFields) {parent name : String} {d : FieldDefinition}
    (hd : s.field? parent name = some d) : d.type.IsOutput s := by
  unfold field? at hd
  obtain ⟨definition, hdefinition, hd⟩ := Option.bind_eq_some_iff.mp hd
  obtain ⟨t, ht, hd⟩ := Option.bind_eq_some_iff.mp hd
  have hentry := Entries.mem_of_get? hdefinition
  have hfield := Entries.mem_of_get? hd
  have hnames : definition.Names d.type.innerName :=
    .field ht (List.mem_map.mpr ⟨(name, d), hfield, rfl⟩)
  have hdefined := (SchemaBuilder.contains_of_build hb).2 definition
    (List.mem_map.mpr ⟨_, hentry, rfl⟩) _ hnames
  obtain ⟨e, he⟩ := Option.isSome_iff_exists.mp hdefined
  have he : s.type? d.type.innerName = some e := he
  refine isOutput_of_innerName he fun described fields heq => ?_
  exact hi _ hentry t ht _ hfield described fields (heq ▸ he)

end Schema

namespace Analysis

/-- The fields of an analyzed tree have types that values of a response can have. -/
theorem isOutput_of_analyze {b : SchemaBuilder} {schema : Schema} (hb : b.build = .ok schema)
    (hi : schema.NoInputFields) {shape : OperationShape} {limit : Nat} {set : SelectionSet}
    (h : analyze schema shape limit = .ok set) {f : Field} (hf : f ∈ allFields set.selections) :
    f.type.IsOutput schema := by
  obtain ⟨type, ⟨request, -, hasSelection, isEmpty, hfield⟩ | rfl⟩ := analyze_fields h hf
  · rcases Resolver.field_eq_ok hfield with ⟨-, hmeta⟩ | hdeclared
    · rw [Resolver.metaField_eq_ok hmeta]
      trivial
    · obtain ⟨d, arguments, hd, -, -, -, rfl⟩ := Resolver.declaredField_eq_ok hdeclared
      exact Schema.isOutput_of_field? hb hi hd
  · trivial

end Analysis

namespace Materialization

open Analysis

variable {schema : Schema} {fragments : List FragmentDefinition}

/-! ## Values -/

theorem keepIf_notMalformed (holds : Bool) (path : Path) (expected : String) (value : Json) :
    NotMalformed (keepIf holds path expected value) := by
  unfold keepIf
  split
  · exact .ok _
  · exact .error not_false

/-- Selections whose spreads are defined and whose fields have types of a response. -/
structure Sound (schema : Schema) (fragments : List FragmentDefinition)
    (selections : List Selection) : Prop where
  resolves : Resolves fragments selections
  outputs : ∀ f ∈ allFields selections, f.type.IsOutput schema

/-- Completing a value of a type, whatever the selections, calls nothing malformed. -/
def Completes (schema : Schema) (fragments : List FragmentDefinition) (value : Json) : Prop :=
  ∀ path type selections slot, type.IsOutput schema → Sound schema fragments selections →
    NotMalformed (complete ⟨schema, fragments⟩ path type selections value slot)

theorem writeSteps_notMalformed {members : Json.Object}
    (ih : ∀ key v, members.get? key = some v → Completes schema fragments v)
    {fields : List CollectedField}
    (hf : ∀ p ∈ fields, p.1.type.IsOutput schema ∧ Sound schema fragments p.2) (path : Path)
    (output : Json.Object) :
    NotMalformed
      (writeSteps ⟨schema, fragments⟩ path members (fields.map Step.ofField) output) := by
  induction fields generalizing output with
  | nil =>
    rw [List.map_nil, writeSteps]
    exact .ok _
  | cons p rest ihr =>
    obtain ⟨htype, hsound⟩ := hf p List.mem_cons_self
    have hrest := ihr fun q hq => hf q (List.mem_cons_of_mem p hq)
    rw [List.map_cons, Step.ofField, writeSteps]
    split
    · split
      · exact .error not_false
      · split
        · exact hrest _
        · exact hrest _
    · rename_i v hv
      split
      · exact hrest _
      · exact Avoids.bind (ih _ v hv _ _ _ _ htype hsound) fun _ _ => hrest _

theorem completeItems_notMalformed {items : List Json}
    (ih : ∀ v ∈ items, Completes schema fragments v) {type : FieldType}
    (ht : type.IsOutput schema) {selections : List Selection}
    (hs : Sound schema fragments selections) (path : Path) (index : Nat) (slots : List Json) :
    NotMalformed
      (completeItems ⟨schema, fragments⟩ path type selections index items slots) := by
  induction items generalizing index slots with
  | nil =>
    rw [completeItems]
    exact .ok _
  | cons v rest ihr =>
    rw [completeItems]
    refine Avoids.bind (ih v List.mem_cons_self _ _ _ _ ht hs) fun _ _ => ?_
    exact Avoids.bind (ihr (fun u hu => ih u (List.mem_cons_of_mem v hu)) _ _) fun _ _ => .ok _

/-- The steps of sound selections on sound definitions are fields, which are sound again. -/
theorem exists_fields_of_sound (hac : Acyclic fragments)
    (hd : ∀ d ∈ fragments, Sound schema fragments d.selections) {selections : List Selection}
    (hs : Sound schema fragments selections) (members : Json.Object) (parent : String) :
    ∃ fields : List CollectedField,
      Context.steps ⟨schema, fragments⟩ members parent selections = fields.map Step.ofField ∧
      ∀ p ∈ fields, p.1.type.IsOutput schema ∧ Sound schema fragments p.2 := by
  have hlists : Lists schema fragments (typename? members) parent selections
      (Context.steps ⟨schema, fragments⟩ members parent selections) :=
    Context.lists_steps hac (fun d hmem => (hd d hmem).resolves) hs.resolves members parent
  obtain ⟨fields, hsteps, -, hresolves⟩ := hlists
  have hcollects : Collects ⟨schema, fragments⟩ (typename? members) parent selections fields :=
    collects_of_stepsTo hsteps
  have houtputs : ∀ p ∈ fields, ∀ f ∈ p.1 :: allFields p.2, f.type.IsOutput schema := by
    intro p hp f hf
    rcases hcollects.mem_allFields hp f hf with hf | ⟨d, hmem, hf⟩
    · exact hs.outputs f hf
    · exact (hd d hmem).outputs f hf
  refine ⟨fields, hsteps, fun p hp => ⟨houtputs p hp _ List.mem_cons_self, hresolves p hp, ?_⟩⟩
  exact fun f hf => houtputs p hp f (List.mem_cons_of_mem _ hf)

theorem complete_named_notMalformed {name : String} {d : TypeDefinition}
    (hd : schema.type? name = some d) (hi : ∀ described fields, d ≠ .inputObject described fields)
    {path : Path} {selections : List Selection} {value slot : Json}
    (hobject : ∀ members, value = .obj members → ∀ output,
      NotMalformed (writeSteps ⟨schema, fragments⟩ path members
        (Context.steps ⟨schema, fragments⟩ members name selections) output)) :
    NotMalformed (complete ⟨schema, fragments⟩ path (.named name) selections value slot) := by
  by_cases hname : schema.isComposite name = true
  · rw [complete_composite hname]
    cases value with
    | null => exact .ok _
    | obj members => exact Avoids.bind (hobject members rfl _) fun _ _ => .ok _
    | _ => exact .error not_false
  · by_cases hnull : value = .null
    · subst hnull
      rw [complete]
      · exact .ok _
      · exact fun _ h => FieldType.noConfusion h
    · have hcomposite : d.isComposite = false := by
        simpa [Schema.isComposite, hd] using hname
      cases d with
      | enum described words =>
        cases value with
        | null => exact absurd rfl hnull
        | _ =>
          simp only [complete, hd]
          exact keepIf_notMalformed _ _ _ _
      | scalar described =>
        cases value with
        | null => exact absurd rfl hnull
        | _ =>
          simp only [complete, hd]
          exact .ok _
      | inputObject described fields => exact absurd rfl (hi described fields)
      | object t => cases hcomposite
      | interface t => cases hcomposite
      | union described members => cases hcomposite

/-- On sound and acyclic definitions every value is completed without calling it malformed. -/
theorem completes (hac : Acyclic fragments)
    (hd : ∀ d ∈ fragments, Sound schema fragments d.selections) (value : Json) :
    Completes schema fragments value := by
  induction hn : sizeOf value using Nat.strongRecOn generalizing value with
  | ind n ih =>
    intro path type selections slot ht hs
    -- lists and objects go down in the value, a non-null type stays at the same value
    induction type generalizing path slot with
    | nonNull inner iht =>
      rw [complete]
      split
      · exact .error not_false
      · exact iht path slot ht
    | list item _ =>
      cases value with
      | null =>
        rw [complete]
        · exact .ok _
        · exact fun _ h => FieldType.noConfusion h
      | arr items =>
        have hitem : item.IsOutput schema := ht
        rw [complete]
        refine Avoids.bind (completeItems_notMalformed (fun v hv => ih (sizeOf v) ?_ v rfl)
          hitem hs _ _ _) fun _ _ => .ok _
        have := List.sizeOf_lt_of_mem hv
        rw [← hn, Json.arr.sizeOf_spec]
        omega
      | _ =>
        simp only [complete]
        exact .error not_false
    | named name =>
      obtain ⟨d, hdef, hi⟩ := ht
      refine complete_named_notMalformed hdef hi ?_
      rintro members rfl output
      obtain ⟨fields, hsteps, hfields⟩ := exists_fields_of_sound hac hd hs members name
      rw [hsteps]
      refine writeSteps_notMalformed (fun key v hv => ih (sizeOf v) ?_ v rfl) hfields _ _
      have := Json.sizeOf_get?_lt hv
      rw [← hn, Json.obj.sizeOf_spec]
      omega
    | id =>
      cases value <;> simp only [complete, identifier]
      all_goals first | exact .ok _ | exact .error not_false
    | _ =>
      cases value <;> simp only [complete]
      all_goals first | exact .ok _ | exact keepIf_notMalformed _ _ _ _

/-- Sound selections on sound and acyclic definitions call no object malformed. -/
theorem materialize_notMalformed {set : SelectionSet} (hac : Acyclic fragments)
    (hd : ∀ d ∈ fragments, Sound schema fragments d.selections)
    (hs : Sound schema fragments set.selections) (members : Json.Object) :
    NotMalformed (materialize schema set fragments (.obj members)) := by
  obtain ⟨fields, hsteps, hfields⟩ := exists_fields_of_sound hac hd hs members set.rootType
  rw [materialize, hsteps]
  refine Avoids.bind ?_ fun _ _ => .ok _
  exact writeSteps_notMalformed (fun _ v _ => completes hac hd v) hfields _ _

end Materialization

/-! ## Compiled operations -/

/-- On a built schema without input objects as the types of fields, what is compiled is sound. -/
theorem sound_of_compile {b : SchemaBuilder} {schema : Schema} (hb : b.build = .ok schema)
    (hi : schema.NoInputFields) {settings : Settings} {shape : OperationShape}
    {query : CompiledQuery} (hc : compile schema settings shape = .ok query) :
    Materialization.Sound schema query.fragments query.selectionSet.selections ∧
      ∀ d ∈ query.fragments, Materialization.Sound schema query.fragments d.selections := by
  obtain ⟨set, lifted, fragments, ha, -, he, hl, -⟩ := compile_stages hc
  obtain ⟨⟨hset, hfragments⟩, -⟩ := resolved_of_compile hc
  have houtput : ∀ f ∈ documentFields query.selectionSet.selections query.fragments,
      f.type.IsOutput schema := by
    intro f hf
    have hmem := mem_allFields_of_lift ha he hl hf
    show (f.mapValues (restoreValue query.declarations)).type.IsOutput schema
    exact Analysis.isOutput_of_analyze hb hi ha hmem
  have hresolves : ∀ {selections : List Selection},
      Selection.Resolved (query.fragments.map (·.name)) selections →
      Resolves query.fragments selections := by
    intro selections hr x hx
    obtain ⟨d, hd, hname⟩ := List.mem_map.mp (hr.spreads x hx)
    refine List.find?_isSome.mpr ⟨d, hd, ?_⟩
    exact decide_eq_true hname
  refine ⟨⟨hresolves hset, fun f hf => houtput f (List.mem_append_left _ hf)⟩, fun d hd => ?_⟩
  refine ⟨hresolves (hfragments d hd), fun f hf => houtput f (List.mem_append_right _ ?_)⟩
  exact List.mem_flatMap.mpr ⟨d, hd, hf⟩

/-- On a built schema in which no field has the type of an input object, no shape and no settings
    make compilation report that a stage has left something open; and what is compiled calls no
    response object malformed.  Materialization ends on every response, for it is a function: the
    bound that it puts on chains of spreads would show as a response called malformed. -/
theorem defects_unreachable {b : SchemaBuilder} {schema : Schema} (hb : b.build = .ok schema)
    (hi : schema.NoInputFields) (settings : Settings) (shape : OperationShape) :
    (∀ error, compile schema settings shape = .error error → ¬ error.IsDefect) ∧
      ∀ query, compile schema settings shape = .ok query →
        ∀ set, Analysis.analyze schema shape settings.recursionLimit = .ok set →
          DistinctFingerprints set.selections → ∀ members error,
            Materialization.materialize schema query.selectionSet query.fragments (.obj members) =
              .error error → ¬ error.IsMalformed := by
  refine ⟨compile_noDefect schema settings shape, fun query hc set ha hd members => ?_⟩
  obtain ⟨hs, hf⟩ := sound_of_compile hb hi hc
  obtain ⟨lifted, fragments, h⟩ := compile_eq_ok ha hd hc
  exact Materialization.materialize_notMalformed h.acyclic hf hs members

/-! ## The hero on a built schema -/

/-- The definitions of the hero schema. -/
def heroBuilder : SchemaBuilder where
  definitions := heroSchema.types.values

/-- The hero schema as it is built, with the built-in scalars. -/
def heroBuilt : Schema := { heroSchema with types := Schema.builtins ++ heroSchema.types }

theorem build_hero : heroBuilder.build = .ok heroBuilt := by
  rfl

theorem noInputFields_hero : heroBuilt.NoInputFields := by
  simp [Schema.NoInputFields, heroBuilt, heroSchema, Schema.builtins, Schema.builtinScalars,
    TypeDefinition.objectType?, Schema.type?, Entries.get?, FieldType.innerName]

theorem compile_built_hero : compile heroBuilt {} heroShape = .ok heroQuery :=
  compile_of_steps (by cbv : Analysis.analyze heroBuilt heroShape 512 = .ok heroAnalyzed)
    extract_hero lift_hero synthesize_hero

/-- A hero that is no object is refused, and not as malformed. -/
theorem defects_unreachable_hero :
    heroBuilder.build = .ok heroBuilt ∧ compile heroBuilt {} heroShape = .ok heroQuery ∧
      ∃ error, Materialization.materialize heroBuilt heroQuery.selectionSet heroQuery.fragments
        (.obj [("hero", .str "Luke")]) = .error error ∧ ¬ error.IsMalformed := by
  have herror : Materialization.materialize heroBuilt heroQuery.selectionSet heroQuery.fragments
      (.obj [("hero", .str "Luke")]) =
        .error (.scalarCoercion (Path.root.push (.key "hero")) "object" "string") := by
    show Materialization.materialize heroBuilt heroCompiled heroFragments _ = _
    cbv
  have hsafe := (defects_unreachable build_hero noInputFields_hero {} heroShape).2 heroQuery
    compile_built_hero heroAnalyzed (by cbv) distinctFingerprints_hero _ _ herror
  exact ⟨build_hero, compile_built_hero, _, herror, hsafe⟩

end QueryShapes
