/-
  Materialized data is materialized to itself.

  What one pass changes is settled after it: identifiers are text, missing values
  are `null`, the keys are those of the fields that apply, in their order.  The
  only thing that could make other fields apply to an output is the type that it
  says.  Either the meta field is selected, and the output says the type that the
  data said, or nothing that applies is on another type than the static one, and
  then the same fields apply to every object of this type (`Collects.of_silent`).

  That a spread stands on the type of its definition rests on the fingerprints of
  the reusable fragments: those of different content are different.
-/
import QueryShapes.Proofs.Materialization.Narrowing
import QueryShapes.Proofs.Materialization.PuttingBack

namespace QueryShapes.Materialization

open Selection Fragments Extraction Lifting Analysis

/-! ## Outputs say the type that matters -/

/-- A field that is written, and that is a string if it has the key of the meta field. -/
def IsPlain (f : Field) : Prop :=
  f.injected = false ∧ (f.responseKey = Name.typename → f.type = .nonNull .string)

/-- Definitions that spread each other in no circle and have plain fields only. -/
structure PlainDefinitions (fragments : List FragmentDefinition) : Prop where
  acyclic : Acyclic fragments
  resolves : ∀ d ∈ fragments, Resolves fragments d.selections
  plain : ∀ d ∈ fragments, ∀ f ∈ allFields d.selections, IsPlain f

/-- A selection list on a type that has plain fields only, asks for the type that it needs, and
    gives the fields of one key one type. -/
structure Settled (c : Context) (type : String) (list : List Selection) : Prop where
  resolves : Resolves c.fragments list
  plain : ∀ f ∈ allFields list, IsPlain f
  asksType : AsksType c type list
  uniform : UniformTypes c type list

section Silent

variable {c : Context} {typename typename' : Option String} {parent : String}
  {list : List Selection} {fields : List CollectedField}

/-- Where no field that applies has the key of the meta field, every fragment of a list is on the
    type of the list. -/
theorem condition_eq_of_silent (h : Collects c typename parent list fields)
    (ha : AsksType c parent list) (hkey : ∀ p ∈ fields, p.1.responseKey ≠ Name.typename)
    {s : Selection} (hs : s ∈ list) {condition : String} {body : List Selection}
    (hc : c.content? s = some (condition, body)) : condition = parent := by
  by_contra hne
  obtain ⟨f, subs, hf, hfkey⟩ := ha parent list .root s hs condition body hc hne
  exact hkey _ (h.mem_of_field hf) hfkey

/-- Where no field that applies has the key of the meta field, the same fields apply to every object
    that says its type truthfully. -/
theorem Collects.of_silent (h : Collects c typename parent list fields)
    (ha : AsksType c parent list) (hkey : ∀ p ∈ fields, p.1.responseKey ≠ Name.typename)
    (hself : applies c.schema parent parent typename = true)
    (hself' : applies c.schema parent parent typename' = true) :
    Collects c typename' parent list fields := by
  have hcontent : ∀ s ∈ list, ∀ condition body, c.content? s = some (condition, body) →
      condition = parent ∧ AsksType c condition body :=
    fun s hs condition body hc =>
      ⟨condition_eq_of_silent h ha hkey hs hc, ha.of_entered (.content .root hs hc)⟩
  clear ha
  induction h with
  | nil => exact .nil
  | field _ ih =>
    refine .field (ih (fun p hp => hkey p (List.mem_cons_of_mem _ hp)) hself hself' ?_)
    exact fun s hs => hcontent s (List.mem_cons_of_mem _ hs)
  | entered hs happlies hinner _ ihinner ih =>
    obtain ⟨rfl, ha⟩ := hcontent _ List.mem_cons_self _ _ hs
    have hinnerkey := fun p hp => hkey p (List.mem_append_left _ hp)
    refine .entered hs hself' (ihinner hinnerkey hself hself' ?_)
      (ih (fun p hp => hkey p (List.mem_append_right _ hp)) hself hself' ?_)
    · exact fun s hs condition body hc =>
        ⟨condition_eq_of_silent hinner ha hinnerkey hs hc, ha.of_entered (.content .root hs hc)⟩
    · exact fun s hs => hcontent s (List.mem_cons_of_mem _ hs)
  | skipped hs happlies _ ih =>
    obtain ⟨rfl, -⟩ := hcontent _ List.mem_cons_self _ _ hs
    rw [hself] at happlies
    cases happlies

end Silent

section Outputs

variable {schema : Schema} {fragments : List FragmentDefinition} {parent : String}
  {list : List Selection} {fields : List CollectedField} {members output : Json.Object}
  {path : Path}

theorem visible_of_plain (h : ∀ p ∈ fields, IsPlain p.1) : visible fields = fields :=
  List.filter_eq_self.mpr fun p hp => by rw [(h p hp).1]; rfl

/-- The steps of a settled list are the fields that apply, and they are plain with all that is below
    them. -/
theorem Settled.steps (hd : PlainDefinitions fragments)
    (hs : Settled ⟨schema, fragments⟩ parent list) (members : Json.Object) :
    ∃ fields : List CollectedField,
      Context.steps ⟨schema, fragments⟩ members parent list = fields.map Step.ofField ∧
      Collects ⟨schema, fragments⟩ (typename? members) parent list fields ∧
      ∀ p ∈ fields, Resolves fragments p.2 ∧ ∀ f ∈ p.1 :: allFields p.2, IsPlain f := by
  have hlists : Lists schema fragments (typename? members) parent list
      (Context.steps ⟨schema, fragments⟩ members parent list) :=
    Context.lists_steps hd.acyclic hd.resolves hs.resolves members parent
  obtain ⟨fields, hsteps, -, hresolves⟩ := hlists
  have hcollects : Collects ⟨schema, fragments⟩ (typename? members) parent list fields :=
    collects_of_stepsTo hsteps
  refine ⟨fields, hsteps, hcollects, fun p hp => ⟨hresolves p hp, fun f hf => ?_⟩⟩
  rcases hcollects.mem_allFields hp f hf with hf | ⟨d, hmem, hf⟩
  · exact hs.plain f hf
  · exact hd.plain d hmem f hf

/-- What is merged under one key of a settled list is settled again. -/
theorem Settled.under (hs : Settled ⟨schema, fragments⟩ parent list) {typename : Option String}
    (hc : Collects ⟨schema, fragments⟩ typename parent list fields)
    (hf : ∀ p ∈ fields, Resolves fragments p.2 ∧ ∀ f ∈ p.1 :: allFields p.2, IsPlain f)
    {p : CollectedField} (hp : p ∈ fields) :
    Settled ⟨schema, fragments⟩ p.1.type.innerName
      (mergedSelections (underKey p.1.responseKey fields)) := by
  have hvisible : visible fields = fields :=
    visible_of_plain fun q hq => (hf q hq).2 _ List.mem_cons_self
  have hmem : ∀ q ∈ underKey p.1.responseKey fields, q ∈ fields := fun q hq =>
    (List.mem_filter.mp hq).1
  refine ⟨resolves_mergedSelections fun q hq => (hf q (hmem q hq)).1, fun f hmerged => ?_,
    asksType_mergedSelections fun q hq => ?_, ?_⟩
  · obtain ⟨q, hq, hbelow⟩ := mem_of_mem_allFields_mergedSelections hmerged
    exact (hf q (hmem q hq)).2 f (List.mem_cons_of_mem _ hbelow)
  · have htype : q.1.type = p.1.type := by
      refine hs.uniform parent list .root typename fields hc q ?_ p ?_
        (beq_iff_eq.mp (List.mem_filter.mp hq).2)
      · rw [hvisible]
        exact hmem q hq
      · rwa [hvisible]
    rw [← htype]
    exact hs.asksType.of_entered (Asks.exists_entered (hc.asks_iff.mpr (hmem q hq)))
  · have hunder := hs.uniform.under hc (p := p) (by rwa [hvisible])
    rwa [hvisible] at hunder

/-- The fields that apply to an object apply to its output. -/
theorem collects_output (hs : Settled ⟨schema, fragments⟩ parent list)
    (ht : TellsTypeOf schema parent members)
    (hc : Collects ⟨schema, fragments⟩ (typename? members) parent list fields)
    (hplain : ∀ p ∈ fields, IsPlain p.1) (hpresent : present members fields = true)
    (hkeys : output.keys = addKeys [] fields)
    (hwritten : ∀ p ∈ fields, ∃ subs w, output.get? p.1.responseKey = some w ∧
      Writes ⟨schema, fragments⟩ (path.push (.key p.1.responseKey))
        (members.get? p.1.responseKey) (p.1, subs) none w) :
    Collects ⟨schema, fragments⟩ (typename? output) parent list fields := by
  by_cases hkey : ∃ p ∈ fields, p.1.responseKey = Name.typename
  · obtain ⟨p, hp, hkey⟩ := hkey
    have htype := (hplain p hp).2 hkey
    obtain ⟨subs, w, hw, hwrites⟩ := hwritten p hp
    have hall := List.all_eq_true.mp hpresent p hp
    have hsame : typename? output = typename? members := by
      rw [hkey, htype] at hall
      rw [hkey] at hw hwrites
      unfold typename?
      rw [hw]
      cases hv : members.get? Name.typename with
      | none => simp [Entries.contains, hv, FieldType.isNonNull] at hall
      | some v =>
        rw [hv] at hwrites
        simp only [Writes, htype] at hwrites
        have hleaf := (complete_leaf_eq_ok rfl).mp (complete_nonNull_eq_ok.mp hwrites).2
        cases v <;> simp_all [leaf?]
    rwa [hsame]
  · have hnone : output.get? Name.typename = none := by
      refine Entries.get?_eq_none_iff.mpr fun hmem => hkey ?_
      rw [hkeys, mem_addKeys_iff] at hmem
      exact hmem.resolve_left List.not_mem_nil
    have hsilent : ∀ p ∈ fields, p.1.responseKey ≠ Name.typename :=
      fun p hp h => hkey ⟨p, hp, h⟩
    refine hc.of_silent hs.asksType hsilent (applies_self_iff.mpr ht) ?_
    rw [typename?, hnone]
    simp [applies]

end Outputs

/-! ## Truthful positions -/

/-- Every object that a position leads to tells its type truthfully. -/
def TruthfulAt (c : Context) (list : List Selection) (site : Site) : Prop :=
  ∀ path list' type object, LeadsTo c list site path list' (.object type object) →
    TellsTypeOf c.schema type object

/-- The values under a key are truthful for all fields of the key. -/
theorem TruthfulAt.under {c : Context} {parent : String} {list : List Selection}
    {members : Json.Object} (h : TruthfulAt c list (.object parent members))
    {fields : List CollectedField} (hc : Collects c (typename? members) parent list fields)
    (hplain : ∀ p ∈ fields, IsPlain p.1) (hu : UniformTypes c parent list) {p : CollectedField}
    (hp : p ∈ fields) {v : Json} (hv : members.get? p.1.responseKey = some v) :
    TruthfulAt c (mergedSelections (underKey p.1.responseKey fields)) (.value p.1.type v) := by
  intro path list' type object hl
  have hne : (underKey p.1.responseKey fields).map Prod.snd ≠ [] := by
    rw [Ne, List.map_eq_nil_iff]
    exact List.ne_nil_of_mem (mem_underKey_self hp)
  have hsub : ∀ s ∈ mergedSelections (underKey p.1.responseKey fields),
      ∃ l ∈ (underKey p.1.responseKey fields).map Prod.snd, s ∈ l := by
    intro s hs
    obtain ⟨q, hq, hs⟩ := List.mem_flatMap.mp hs
    exact ⟨q.2, List.mem_map_of_mem hq, hs⟩
  obtain ⟨l, hl, list'', hlead⟩ := hl.exists_of_lists hne hsub
  obtain ⟨q, hq, rfl⟩ := List.mem_map.mp hl
  obtain ⟨hq, hkey⟩ := List.mem_filter.mp hq
  have hkey : q.1.responseKey = p.1.responseKey := beq_iff_eq.mp hkey
  have hvisible := visible_of_plain hplain
  have htype : q.1.type = p.1.type :=
    hu parent list .root _ fields hc q (hvisible.symm ▸ hq) p (hvisible.symm ▸ hp) hkey
  rw [← htype] at hlead
  exact h _ _ _ _ (.field (hc.asks_iff.mpr hq) (hplain q hq).1 (hkey ▸ hv) hlead)

/-! ## The second pass -/

section Again

variable {schema : Schema} {fragments : List FragmentDefinition}

/-- A value of a type without selections goes out as it is, or as an identifier that stays. -/
theorem leaf?_again {type : FieldType} (htype : isLeaf schema type = true) {v w : Json}
    (h : leaf? schema type v = some w) : leaf? schema type w = some w := by
  have hin : Inhabits ⟨schema, []⟩ type [] v w := inhabits_of_leaf htype h
  cases hin with
  | nonNull => cases htype
  | list => cases htype
  | object hname => simp [isLeaf, hname] at htype
  | idInteger => rfl
  | _ => exact h

theorem complete_null {c : Context} {path : Path} {type : FieldType} {list : List Selection}
    {slot : Json} (h : type.isNonNull = false) :
    complete c path type list .null slot = .ok .null := by
  cases type <;> simp [complete, FieldType.isNonNull] at h ⊢

/-- A value is completed to what completes to itself. -/
def CompletedAgain (schema : Schema) (fragments : List FragmentDefinition) (v : Json) : Prop :=
  ∀ path path' type list w, Settled ⟨schema, fragments⟩ type.innerName list →
    TruthfulAt ⟨schema, fragments⟩ list (.value type v) →
    complete ⟨schema, fragments⟩ path type list v .null = .ok w →
      complete ⟨schema, fragments⟩ path' type list w .null = .ok w

/-- The output of an object is written again as it is. -/
theorem writeSteps_again (hd : PlainDefinitions fragments) {members : Json.Object}
    (ih : ∀ key v, members.get? key = some v → CompletedAgain schema fragments v) {parent : String}
    {list : List Selection} (hs : Settled ⟨schema, fragments⟩ parent list)
    (ht : TruthfulAt ⟨schema, fragments⟩ list (.object parent members)) {path path' : Path}
    {output : Json.Object}
    (h : writeSteps ⟨schema, fragments⟩ path members
      (Context.steps ⟨schema, fragments⟩ members parent list) [] = .ok output) :
    writeSteps ⟨schema, fragments⟩ path' output
      (Context.steps ⟨schema, fragments⟩ output parent list) [] = .ok output := by
  obtain ⟨fields, hsteps, hc, hf⟩ := hs.steps hd members
  have hplain : ∀ p ∈ fields, IsPlain p.1 := fun p hp => (hf p hp).2 _ List.mem_cons_self
  have hvisible := visible_of_plain hplain
  have htypes := hs.uniform parent list .root _ fields hc
  rw [hsteps, writeSteps_eq_ok_iff_merged htypes, hvisible] at h
  obtain ⟨hpresent, hkeys, hwritten⟩ := h
  have hsame : Context.steps ⟨schema, fragments⟩ output parent list =
      fields.map Step.ofField := by
    obtain ⟨fields', hsteps', hc', -⟩ := hs.steps hd output
    have hc'' := collects_output hs (ht _ _ _ _ .here) hc hplain hpresent hkeys fun p hp => by
      obtain ⟨w, hw, hwrites⟩ := hwritten p hp
      exact ⟨_, w, hw, hwrites⟩
    rw [hsteps', hc'.unique hc'']
  rw [hsame, writeSteps_eq_ok_iff_merged htypes, hvisible]
  refine ⟨List.all_eq_true.mpr fun p hp => ?_, hkeys, fun p hp => ?_⟩
  · obtain ⟨w, hw, -⟩ := hwritten p hp
    rw [Entries.contains, hw]
    rfl
  · obtain ⟨w, hw, hwrites⟩ := hwritten p hp
    refine ⟨w, hw, ?_⟩
    rw [hw]
    cases hv : members.get? p.1.responseKey with
    | none =>
      have hall := List.all_eq_true.mp hpresent p hp
      have hnull : p.1.type.isNonNull = false := by
        simpa [Entries.contains, hv] using hall
      rw [hv] at hwrites
      have hw : w = .null := hwrites
      subst hw
      exact complete_null hnull
    | some v =>
      rw [hv] at hwrites
      have hunder := hs.under hc hf hp
      exact ih _ v hv _ _ _ _ w hunder (ht.under hc hplain hs.uniform hp hv) hwrites

/-- The items of an output list are completed to themselves. -/
theorem completeItems_again {items : List Json} {type : FieldType} {list : List Selection}
    (ih : ∀ v ∈ items, ∀ path path' w,
      complete ⟨schema, fragments⟩ path type list v .null = .ok w →
        complete ⟨schema, fragments⟩ path' type list w .null = .ok w) {path path' : Path}
    {index index' : Nat} {outputs : List Json}
    (h : completeItems ⟨schema, fragments⟩ path type list index items
      (List.replicate items.length .null) = .ok outputs) :
    completeItems ⟨schema, fragments⟩ path' type list index' outputs
      (List.replicate outputs.length .null) = .ok outputs := by
  induction items generalizing index index' outputs with
  | nil =>
    rw [completeItems_nil_eq_ok] at h
    subst h
    rw [completeItems_nil_eq_ok]
  | cons v rest ihr =>
    rw [completeItems_cons_eq_ok, List.length_cons, List.replicate_succ, List.headD_cons,
      List.tail_cons] at h
    obtain ⟨first, others, rfl, hfirst, hothers⟩ := h
    rw [completeItems_cons_eq_ok, List.length_cons, List.replicate_succ, List.headD_cons,
      List.tail_cons]
    exact ⟨first, others, rfl, ih v List.mem_cons_self _ _ _ hfirst,
      ihr (fun u hu => ih u (List.mem_cons_of_mem v hu)) hothers⟩

/-- Completion of a truthful value with settled selections gives what completes to itself. -/
theorem completedAgain (hd : PlainDefinitions fragments) (v : Json) :
    CompletedAgain schema fragments v := by
  induction hn : sizeOf v using Nat.strongRecOn generalizing v with
  | ind n ih =>
    intro path path' type list w hs ht h
    -- lists and objects go down in the value, a non-null type stays at the same value
    induction type generalizing w with
    | nonNull inner iht =>
      have hin : Inhabits ⟨schema, fragments⟩ (.nonNull inner) list v w :=
        inhabits_of_complete hs.uniform h
      obtain ⟨hv, h⟩ := complete_nonNull_eq_ok.mp h
      have hw : w.isNull = false := by
        cases hin with
        | null hnull => cases hnull
        | nonNull _ hne _ => exact Bool.eq_false_iff.mpr fun hnull => hne (Json.isNull_iff.mp hnull)
      refine complete_nonNull_eq_ok.mpr ⟨hw, iht w hs (fun _ _ _ _ hl => ?_) h⟩
      exact ht _ _ _ _ (.nonNull hl)
    | list item _ =>
      rcases complete_list_eq_ok.mp h with ⟨rfl, rfl⟩ | ⟨items, outputs, rfl, rfl, hitems⟩
      · exact complete_null rfl
      · refine complete_list_eq_ok.mpr (Or.inr ⟨outputs, outputs, rfl, rfl, ?_⟩)
        refine completeItems_again (fun v hv path path' w hw => ?_) hitems
        refine ih (sizeOf v) ?_ v rfl path path' item list w hs ?_ hw
        · have := List.sizeOf_lt_of_mem hv
          rw [← hn, Json.arr.sizeOf_spec]
          omega
        · intro _ _ _ _ hl
          obtain ⟨i, hi⟩ := List.getElem?_of_mem hv
          exact ht _ _ _ _ (.item hi hl)
    | named name =>
      cases hname : schema.isComposite name with
      | true =>
        rcases (complete_composite_eq_ok hname).mp h with
          ⟨rfl, rfl⟩ | ⟨members, output, rfl, rfl, hsteps⟩
        · exact complete_null rfl
        · refine (complete_composite_eq_ok hname).mpr (Or.inr ⟨output, output, rfl, rfl, ?_⟩)
          refine writeSteps_again hd (fun key v hv => ih (sizeOf v) ?_ v rfl) hs
            (fun _ _ _ _ hl => ht _ _ _ _ (.composite hname hl)) hsteps
          have := Json.sizeOf_get?_lt hv
          rw [← hn, Json.obj.sizeOf_spec]
          omega
      | false =>
        have hleaf : isLeaf schema (.named name) = true := by simp [isLeaf, hname]
        rw [complete_leaf_eq_ok hleaf] at h ⊢
        exact leaf?_again hleaf h
    | _ =>
      rw [complete_leaf_eq_ok rfl] at h ⊢
      exact leaf?_again rfl h

end Again

/-! ## Compiled operations -/

/-- A compiled operation without injected fields, in which only the meta field has its name for a
    response key, is settled. -/
theorem settled_of_compile {schema : Schema} {settings : Settings} {shape : OperationShape}
    {set : SelectionSet} {lifted : Lifted} {fragments : List FragmentDefinition}
    {query : CompiledQuery} (ha : analyze schema shape settings.recursionLimit = .ok set)
    (h : Compiled set lifted fragments query)
    (hplain : ∀ f ∈ documentFields query.selectionSet.selections query.fragments, IsPlain f)
    (hu : UniformTypes ⟨schema, query.fragments⟩ query.selectionSet.rootType
      query.selectionSet.selections) :
    PlainDefinitions query.fragments ∧
      Settled ⟨schema, query.fragments⟩ query.selectionSet.rootType
        query.selectionSet.selections := by
  refine ⟨⟨h.acyclic, h.bodies, fun d hd f hf => hplain f (List.mem_append_right _ ?_)⟩,
    h.resolves, fun f hf => hplain f (List.mem_append_left _ hf), asksType_of_compile ha h, hu⟩
  exact List.mem_flatMap.mpr ⟨d, hd, hf⟩

/-- Materialization is idempotent: on a compiled operation without injected fields, in which only
    the meta field has its name for a response key and fields that share a response key in a merged
    selection set have one type, the output for truthful data is materialized to itself, with its
    keys in the same order.  The digests of different fragment contents are taken to be different:
    only then does a spread stand for the content that it was analyzed with. -/
theorem materialize_idempotent {schema : Schema} {settings : Settings} {shape : OperationShape}
    {set : SelectionSet} {query : CompiledQuery}
    (ha : analyze schema shape settings.recursionLimit = .ok set)
    (hd : DistinctFingerprints set.selections)
    (hc : compile schema settings shape = .ok query)
    (hinjected : ∀ f ∈ documentFields query.selectionSet.selections query.fragments,
      f.injected = false)
    (hmeta : ∀ f ∈ documentFields query.selectionSet.selections query.fragments,
      f.responseKey = Name.typename → f = Field.typename f.parentType f.aliasName f.injected)
    (hu : UniformTypes ⟨schema, query.fragments⟩ query.selectionSet.rootType
      query.selectionSet.selections) {data out : Json}
    (ht : ∀ members, data = .obj members →
      TruthfulAt ⟨schema, query.fragments⟩ query.selectionSet.selections
        (.object query.selectionSet.rootType members))
    (h : materialize schema query.selectionSet query.fragments data = .ok out) :
    materialize schema query.selectionSet query.fragments out = .ok out := by
  obtain ⟨lifted, fragments, hcompiled⟩ := compile_eq_ok ha hd hc
  obtain ⟨hdefinitions, hs⟩ := settled_of_compile ha hcompiled (fun f hf =>
    ⟨hinjected f hf, fun hkey => by rw [hmeta f hf hkey]; rfl⟩) hu
  cases data with
  | obj members =>
    simp only [materialize, bind_eq_ok, pure_eq_ok] at h
    obtain ⟨output, hsteps, rfl⟩ := h
    simp only [materialize, bind_eq_ok, pure_eq_ok]
    exact ⟨output, writeSteps_again hdefinitions (fun _ v _ => completedAgain hdefinitions v) hs
      (ht members rfl) hsteps, rfl⟩
  | _ => cases h

/-- A hero with more than is asked for. -/
def rankedHero : Json := .obj [("hero", .obj [("rank", .str "Commander"), ("name", .str "Luke")])]

/-- No object of the data says a type. -/
theorem typename?_of_at?_rankedHero {path : List PathElement} {object : Json.Object}
    (h : rankedHero.at? path = some (.obj object)) : typename? object = none := by
  have htext : ∀ {s : String} {rest : List PathElement},
      (Json.str s).at? rest ≠ some (.obj object) := by
    intro s rest h
    cases rest <;> cases h
  match path with
  | [] =>
    cases h
    rfl
  | .index i :: rest => cases h
  | .key name :: rest =>
    simp only [rankedHero, Json.at?, Json.child?, Entries.get?_cons, Entries.get?_nil] at h
    split at h
    · match rest with
      | [] =>
        cases h
        rfl
      | .index i :: rest => cases h
      | .key name :: rest =>
        simp only [Option.bind_some, Json.at?, Json.child?, Entries.get?_cons,
          Entries.get?_nil] at h
        split at h
        · exact absurd h htext
        · split at h
          · exact absurd h htext
          · cases h
    · cases h

/-- The hero keeps what is asked for, and then all of it. -/
theorem materialize_idempotent_hero :
    materialize heroSchema heroQuery.selectionSet heroQuery.fragments rankedHero =
        .ok (.obj [("hero", .obj [("name", .str "Luke")])]) ∧
      materialize heroSchema heroQuery.selectionSet heroQuery.fragments
          (.obj [("hero", .obj [("name", .str "Luke")])]) =
        .ok (.obj [("hero", .obj [("name", .str "Luke")])]) := by
  have hok : materialize heroSchema heroCompiled heroFragments rankedHero =
      .ok (.obj [("hero", .obj [("name", .str "Luke")])]) := by
    cbv
  have hfields : ∀ f ∈ documentFields heroCompiled.selections heroFragments,
      f.injected = false ∧ f.responseKey ≠ Name.typename := by
    simp [documentFields, heroCompiled, heroOperation, heroFragments, heroContent, heroField,
      allFields, Field.responseKey, Name.typename]
  have hu : UniformTypes ⟨heroSchema, heroFragments⟩ "Query" heroCompiled.selections := by
    apply uniformTypes_of_allFields (documentFields heroCompiled.selections heroFragments)
    · exact fun f hf => List.mem_append_left _ hf
    · exact fun d hd f hf => List.mem_append_right _ (List.mem_flatMap.mpr ⟨d, hd, hf⟩)
    · simp [documentFields, heroCompiled, heroOperation, heroFragments, heroContent, heroField,
        allFields, Field.responseKey]
  refine ⟨hok, materialize_idempotent analyze_hero distinctFingerprints_hero compile_hero
    (fun f hf => (hfields f hf).1) (fun f hf hkey => absurd hkey (hfields f hf).2) hu
    (fun members hm path list type object hl name hname => ?_) hok⟩
  have hat := hl.at?_eq
  rw [Site.json, ← hm, Site.json] at hat
  rw [typename?_of_at?_rankedHero hat] at hname
  cases hname

end QueryShapes.Materialization
