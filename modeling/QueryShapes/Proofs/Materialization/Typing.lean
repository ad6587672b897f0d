/-
  Materialized data has the declared types and nothing else.

  `Collects` is the relation between a selection list and the fields of it that
  apply to an object; it enters the definition of every spread and needs no bound.
  `Inhabits` and `Filled` say what a value of a declared type and an object of a
  selection list look like in the output: an object has the keys of the fields
  that apply and are not injected, each once and in order of first selection, and
  its values inhabit the declared types.  Every output has this form, also on
  selections that are no compiled ones (`materialize_filled`).
-/
import QueryShapes.Proofs.Materialization.Merged

namespace QueryShapes.Materialization

open Selection Analysis

/-! ## The fields that apply -/

/-- The type condition and the selections of a fragment: a spread stands for its definition. -/
def Context.content? (c : Context) : Selection → Option (String × List Selection)
  | .field _ _ => none
  | .inline condition subs => some (condition, subs)
  | .marker _ condition subs => some (condition, subs)
  | .spread name condition => (c.fragment? name).map fun d => (condition, d.selections)

/-- The fields of a selection list on a type that apply to an object, in order of selection. -/
inductive Collects (c : Context) (typename : Option String) :
    String → List Selection → List CollectedField → Prop
  | nil {parent : String} : Collects c typename parent [] []
  | field {parent : String} {f : Field} {subs rest : List Selection}
      {fields : List CollectedField} (h : Collects c typename parent rest fields) :
      Collects c typename parent (.field f subs :: rest) ((f, subs) :: fields)
  | entered {parent condition : String} {s : Selection} {subs rest : List Selection}
      {inner fields : List CollectedField} (hs : c.content? s = some (condition, subs))
      (happlies : applies c.schema condition parent typename = true)
      (hinner : Collects c typename condition subs inner)
      (h : Collects c typename parent rest fields) :
      Collects c typename parent (s :: rest) (inner ++ fields)
  | skipped {parent condition : String} {s : Selection} {subs rest : List Selection}
      {fields : List CollectedField} (hs : c.content? s = some (condition, subs))
      (happlies : applies c.schema condition parent typename = false)
      (h : Collects c typename parent rest fields) :
      Collects c typename parent (s :: rest) fields

section Collection

variable {c : Context} {typename : Option String} {parent : String} {selections : List Selection}
  {fields : List CollectedField}

/-- The fields that apply are determined. -/
theorem Collects.unique (h : Collects c typename parent selections fields)
    {others : List CollectedField} (h' : Collects c typename parent selections others) :
    fields = others := by
  induction h generalizing others with
  | nil =>
    cases h'
    rfl
  | field _ ih =>
    cases h' with
    | field h' => rw [ih h']
    | entered hs' => cases hs'
    | skipped hs' => cases hs'
  | entered hs happlies _ _ ihinner ih =>
    cases h' with
    | field => cases hs
    | entered hs' _ hinner' h' =>
      rw [hs] at hs'
      cases hs'
      rw [ihinner hinner', ih h']
    | skipped hs' happlies' =>
      rw [hs] at hs'
      cases hs'
      rw [happlies] at happlies'
      cases happlies'
  | skipped hs happlies _ ih =>
    cases h' with
    | field => cases hs
    | entered hs' happlies' =>
      rw [hs] at hs'
      cases hs'
      rw [happlies] at happlies'
      cases happlies'
    | skipped _ _ h' => exact ih h'

theorem Collects.mem_of_field (h : Collects c typename parent selections fields) {f : Field}
    {subs : List Selection} (hf : .field f subs ∈ selections) : (f, subs) ∈ fields := by
  induction h with
  | nil => cases hf
  | field _ ih =>
    rcases List.mem_cons.mp hf with heq | hf
    · cases heq
      exact List.mem_cons_self
    · exact List.mem_cons_of_mem _ (ih hf)
  | entered hs _ _ _ _ ih =>
    rcases List.mem_cons.mp hf with rfl | hf
    · cases hs
    · exact List.mem_append_right _ (ih hf)
  | skipped hs _ _ ih =>
    rcases List.mem_cons.mp hf with rfl | hf
    · cases hs
    · exact ih hf

/-- The fields of a fragment whose condition applies are among those of the list. -/
theorem Collects.exists_inner (h : Collects c typename parent selections fields) {s : Selection}
    (hs : s ∈ selections) {condition : String} {subs : List Selection}
    (hc : c.content? s = some (condition, subs))
    (happlies : applies c.schema condition parent typename = true) :
    ∃ inner, Collects c typename condition subs inner ∧ ∀ p ∈ inner, p ∈ fields := by
  induction h with
  | nil => cases hs
  | field _ ih =>
    rcases List.mem_cons.mp hs with rfl | hs
    · cases hc
    · obtain ⟨inner, hinner, hsub⟩ := ih hs happlies
      exact ⟨inner, hinner, fun p hp => List.mem_cons_of_mem _ (hsub p hp)⟩
  | entered hs' _ hinner _ _ ih =>
    rcases List.mem_cons.mp hs with rfl | hs
    · rw [hc] at hs'
      cases hs'
      exact ⟨_, hinner, fun p hp => List.mem_append_left _ hp⟩
    · obtain ⟨inner, hinner', hsub⟩ := ih hs happlies
      exact ⟨inner, hinner', fun p hp => List.mem_append_right _ (hsub p hp)⟩
  | skipped hs' hskip _ ih =>
    rcases List.mem_cons.mp hs with rfl | hs
    · rw [hc] at hs'
      cases hs'
      rw [happlies] at hskip
      cases hskip
    · exact ih hs happlies

/-- A fragment whose steps are fields adds those of its content if its condition applies. -/
theorem Collects.conditioned {condition : String} {s : Selection} {subs rest : List Selection}
    {steps steps' : List Step} (hs : c.content? s = some (condition, subs))
    (hinner : ∀ inner, steps = inner.map Step.ofField → Collects c typename condition subs inner)
    (hrest : ∀ others, steps' = others.map Step.ofField → Collects c typename parent rest others)
    (h : (if applies c.schema condition parent typename then steps else []) ++ steps' =
      fields.map Step.ofField) :
    Collects c typename parent (s :: rest) fields := by
  cases happlies : applies c.schema condition parent typename with
  | true =>
    rw [happlies, if_pos rfl] at h
    obtain ⟨inner, others, rfl, hi, ho⟩ := List.map_eq_append_iff.mp h.symm
    exact .entered hs happlies (hinner inner hi.symm) (hrest others ho.symm)
  | false =>
    rw [happlies, if_neg Bool.false_ne_true, List.nil_append] at h
    exact .skipped hs happlies (hrest fields h)

/-- Steps that are all fields are those of the fields that apply, if this is so at the spreads. -/
theorem collects_of_stepsWith {spread : String → List Selection → List Step}
    (hspread : ∀ condition (d : FragmentDefinition) inner,
      spread condition d.selections = inner.map Step.ofField →
        Collects c typename condition d.selections inner)
    (h : stepsWith c typename spread parent selections = fields.map Step.ofField) :
    Collects c typename parent selections fields := by
  induction selections using listInduction generalizing parent fields with
  | nil =>
    rw [stepsWith] at h
    rw [List.map_eq_nil_iff.mp h.symm]
    exact .nil
  | field f subs rest _ ihr =>
    rw [stepsWith] at h
    obtain ⟨p, others, rfl, hp, ho⟩ := List.map_eq_cons_iff.mp h.symm
    cases hp
    exact .field (ihr ho.symm)
  | spread name condition rest ihr =>
    rw [stepsWith] at h
    cases hd : c.fragment? name with
    | none =>
      -- a spread without a definition is a fault, which no field is
      rw [hd] at h
      obtain ⟨p, others, rfl, hp, -⟩ := List.map_eq_cons_iff.mp h.symm
      cases hp
    | some d =>
      rw [hd] at h
      have hs : c.content? (.spread name condition) = some (condition, d.selections) := by
        rw [Context.content?, hd]
        rfl
      exact .conditioned hs (hspread condition d) (fun _ ho => ihr ho) h
  | inline condition subs rest ihs ihr =>
    rw [stepsWith] at h
    exact .conditioned rfl (fun _ hi => ihs hi) (fun _ ho => ihr ho) h
  | marker name condition subs rest ihs ihr =>
    rw [stepsWith] at h
    exact .conditioned rfl (fun _ hi => ihs hi) (fun _ ho => ihr ho) h

theorem collects_of_stepsTo {depth : Nat}
    (h : stepsTo c typename depth parent selections = fields.map Step.ofField) :
    Collects c typename parent selections fields := by
  induction depth generalizing parent selections fields with
  | zero =>
    refine collects_of_stepsWith (fun condition d inner hi => ?_) h
    obtain ⟨p, others, rfl, hp, -⟩ := List.map_eq_cons_iff.mp hi.symm
    cases hp
  | succ depth ih => exact collects_of_stepsWith (fun condition d inner hi => ih hi) h

/-- Steps that can be written have no fault among them. -/
theorem fields_of_writeSteps {path : Path} {members : Json.Object} {steps : List Step}
    {output output' : Json.Object} (h : writeSteps c path members steps output = .ok output') :
    ∃ fields : List CollectedField, steps = fields.map Step.ofField := by
  induction steps generalizing output with
  | nil => exact ⟨[], rfl⟩
  | cons step rest ih =>
    cases step with
    | fault error =>
      rw [writeSteps] at h
      cases h
    | field f subs =>
      have hrest : ∃ middle, writeSteps c path members rest middle = .ok output' := by
        cases hf : f.injected with
        | true => exact ⟨output, ((writeSteps_injected hf).mp h).2⟩
        | false =>
          obtain ⟨-, w, -, hw⟩ := (writeSteps_visible hf).mp h
          exact ⟨_, hw⟩
      obtain ⟨middle, hm⟩ := hrest
      obtain ⟨fields, rfl⟩ := ih hm
      exact ⟨(f, subs) :: fields, rfl⟩

end Collection

/-! ## Response keys -/

/-- The response keys of fields, each once, in order of first appearance. -/
def responseKeys (fields : List CollectedField) : List String :=
  (fields.map (·.1.responseKey)).eraseDups

theorem addKeys_eq (keys : List String) (fields : List CollectedField) :
    addKeys keys fields =
      keys ++ ((fields.map (·.1.responseKey)).filter fun key => !keys.contains key).eraseDups := by
  induction fields generalizing keys with
  | nil => simp [addKeys]
  | cons p rest ih =>
    have hcons : addKeys keys (p :: rest) = addKeys (addKey keys p.1.responseKey) rest := rfl
    rw [hcons, ih, List.map_cons]
    unfold addKey
    cases hmem : keys.contains p.1.responseKey with
    | true => rw [if_pos rfl, List.filter_cons_of_neg (by rw [hmem]; exact Bool.false_ne_true)]
    | false =>
      -- the key stands where it appears first, and nowhere after it
      have hfilter : ∀ key : String, (!(keys ++ [p.1.responseKey]).contains key) =
          (!(key == p.1.responseKey) && !keys.contains key) := by
        intro key
        simp only [List.contains_append, List.contains_cons, List.contains_nil, Bool.or_false,
          Bool.not_or, Bool.and_comm]
      rw [if_neg Bool.false_ne_true, List.filter_cons_of_pos (by rw [hmem]; rfl),
        List.eraseDups_cons, List.filter_filter, List.append_assoc, List.singleton_append]
      simp only [hfilter]

theorem addKeys_nil (fields : List CollectedField) : addKeys [] fields = responseKeys fields := by
  rw [addKeys_eq, responseKeys, List.nil_append]
  simp

theorem nodup_responseKeys (fields : List CollectedField) : (responseKeys fields).Nodup :=
  addKeys_nil fields ▸ nodup_addKeys List.nodup_nil fields

/-! ## Merged selection sets -/

/-- The selection lists that are completed against values below a list on a type: those of the
    fields of one key that are not injected, one after the other. -/
inductive MergedUnder (c : Context) (parent : String) (selections : List Selection) :
    String → List Selection → Prop
  | root : MergedUnder c parent selections parent selections
  | under {type : String} {below : List Selection} (h : MergedUnder c parent selections type below)
      {typename : Option String} {fields : List CollectedField}
      (hf : Collects c typename type below fields) {p : CollectedField} (hp : p ∈ visible fields) :
      MergedUnder c parent selections p.1.type.innerName
        (mergedSelections (underKey p.1.responseKey (visible fields)))

/-- Fields that share a response key in a merged selection set have the same declared type. -/
def UniformTypes (c : Context) (parent : String) (selections : List Selection) : Prop :=
  ∀ type below, MergedUnder c parent selections type below →
    ∀ typename fields, Collects c typename type below fields →
      ∀ p ∈ visible fields, ∀ q ∈ visible fields,
        p.1.responseKey = q.1.responseKey → p.1.type = q.1.type

section Merging

variable {c : Context} {parent : String} {selections : List Selection}

theorem MergedUnder.trans {type type' : String} {below below' : List Selection}
    (h : MergedUnder c parent selections type below) (h' : MergedUnder c type below type' below') :
    MergedUnder c parent selections type' below' := by
  induction h' with
  | root => exact h
  | under _ hf hp ih => exact .under ih hf hp

/-- What is merged under one key is uniform again. -/
theorem UniformTypes.under (h : UniformTypes c parent selections) {typename : Option String}
    {fields : List CollectedField} (hf : Collects c typename parent selections fields)
    {p : CollectedField} (hp : p ∈ visible fields) :
    UniformTypes c p.1.type.innerName
      (mergedSelections (underKey p.1.responseKey (visible fields))) :=
  fun type below hb => h type below (.trans (.under .root hf hp) hb)

/-- The fields that apply come from the list and the fragments, with all that is below them. -/
theorem Collects.mem_allFields {typename : Option String} {fields : List CollectedField}
    (h : Collects c typename parent selections fields) {p : CollectedField} (hp : p ∈ fields) :
    ∀ f ∈ p.1 :: allFields p.2,
      f ∈ allFields selections ∨ ∃ d ∈ c.fragments, f ∈ allFields d.selections := by
  induction h with
  | nil => cases hp
  | field _ ih =>
    intro f hf
    rw [allFields, List.mem_cons, List.mem_append]
    rcases List.mem_cons.mp hp with rfl | hp
    · exact Or.inl ((List.mem_cons.mp hf).imp_right Or.inl)
    · exact (ih hp f hf).imp_left fun hf => Or.inr (Or.inr hf)
  | @entered parent condition s subs rest inner fields hs _ _ _ ihinner ih =>
    intro f hf
    rcases List.mem_append.mp hp with hp | hp
    · rcases ihinner hp f hf with hf | hf
      · cases s with
        | field g gs => cases hs
        | inline condition' subs' =>
          cases hs
          exact Or.inl (by rw [allFields]; exact List.mem_append_left _ hf)
        | marker name condition' subs' =>
          cases hs
          exact Or.inl (by rw [allFields]; exact List.mem_append_left _ hf)
        | spread name condition' =>
          obtain ⟨d, hd, heq⟩ := Option.map_eq_some_iff.mp hs
          cases heq
          exact Or.inr ⟨d, List.mem_of_find?_eq_some hd, hf⟩
      · exact Or.inr hf
    · refine (ih hp f hf).imp_left fun hf => ?_
      exact (within_tail s rest).fields f hf
  | @skipped parent condition s subs rest fields _ _ _ ih =>
    intro f hf
    exact (ih hp f hf).imp_left fun hf => (within_tail s rest).fields f hf

/-- Where all fields of a list and of the fragments that share a response key have one type, the
    fields of every merged selection set do. -/
theorem uniformTypes_of_allFields (pool : List Field)
    (hselections : ∀ f ∈ allFields selections, f ∈ pool)
    (hfragments : ∀ d ∈ c.fragments, ∀ f ∈ allFields d.selections, f ∈ pool)
    (h : ∀ f ∈ pool, ∀ g ∈ pool, f.responseKey = g.responseKey → f.type = g.type) :
    UniformTypes c parent selections := by
  have hcollected : ∀ {type below typename fields}, (∀ f ∈ allFields below, f ∈ pool) →
      Collects c typename type below fields → ∀ p ∈ fields, ∀ f ∈ p.1 :: allFields p.2,
        f ∈ pool := by
    intro type below typename fields hbelow hf p hp f hmem
    rcases hf.mem_allFields hp f hmem with hmem | ⟨d, hd, hmem⟩
    · exact hbelow f hmem
    · exact hfragments d hd f hmem
  have hvisible : ∀ {fields : List CollectedField}, ∀ p ∈ visible fields, p ∈ fields :=
    fun p hp => (List.mem_filter.mp hp).1
  have hmerged : ∀ type below, MergedUnder c parent selections type below →
      ∀ f ∈ allFields below, f ∈ pool := by
    intro type below hb
    induction hb with
    | root => exact hselections
    | under _ hf hp ih =>
      intro f hmem
      obtain ⟨q, hq, hmem⟩ := mem_of_mem_allFields_mergedSelections hmem
      have hq := hvisible q (List.mem_filter.mp hq).1
      exact hcollected ih hf q hq f (List.mem_cons_of_mem _ hmem)
  intro type below hb typename fields hf p hp q hq
  have hpool := hcollected (hmerged type below hb) hf
  exact h _ (hpool p (hvisible p hp) _ List.mem_cons_self) _
    (hpool q (hvisible q hq) _ List.mem_cons_self)

end Merging

/-! ## Outputs of declared types -/

mutual

/-- An output for a value of the data that inhabits a declared type; an object in it is filled by
    the selections. -/
inductive Inhabits (c : Context) : FieldType → List Selection → Json → Json → Prop
  | null {type : FieldType} {selections : List Selection} (hn : type.isNonNull = false) :
      Inhabits c type selections .null .null
  | nonNull {inner : FieldType} {selections : List Selection} {value output : Json}
      (hv : value ≠ .null) (ho : output ≠ .null) (h : Inhabits c inner selections value output) :
      Inhabits c (.nonNull inner) selections value output
  | list {item : FieldType} {selections : List Selection} {items outputs : List Json}
      (hl : outputs.length = items.length)
      (h : ∀ (i : Nat) (v w : Json), items[i]? = some v → outputs[i]? = some w →
        Inhabits c item selections v w) :
      Inhabits c (.list item) selections (.arr items) (.arr outputs)
  | int {selections : List Selection} {i : Int} (hlow : -0x80000000 ≤ i) (hhigh : i < 0x80000000) :
      Inhabits c .int selections (.int i) (.int i)
  | float {selections : List Selection} {x : Json} (hx : x.isNumber = true) :
      Inhabits c .float selections x x
  | boolean {selections : List Selection} {b : Bool} :
      Inhabits c .boolean selections (.bool b) (.bool b)
  | string {selections : List Selection} {s : String} :
      Inhabits c .string selections (.str s) (.str s)
  | id {selections : List Selection} {s : String} : Inhabits c .id selections (.str s) (.str s)
  /-- An identifier that comes as an integer goes out as its decimal text. -/
  | idInteger {selections : List Selection} {i : Int} :
      Inhabits c .id selections (.int i) (.str (Text.integer i))
  | enum {name described word : String} {words : List String} {selections : List Selection}
      (hd : c.schema.type? name = some (.enum described words)) (hw : word ∈ words) :
      Inhabits c (.named name) selections (.str word) (.str word)
  | scalar {name described : String} {selections : List Selection} {v : Json}
      (hd : c.schema.type? name = some (.scalar described)) :
      Inhabits c (.named name) selections v v
  | object {name : String} {selections : List Selection} {members output : Json.Object}
      (hname : c.schema.isComposite name = true) (h : Filled c name selections members output) :
      Inhabits c (.named name) selections (.obj members) (.obj output)

/-- An output object for an object of the data: it has the keys of the fields that apply and are
    not injected, a value for each that inhabits its declared type, and `null` only for what is
    missing and may be. -/
inductive Filled (c : Context) : String → List Selection → Json.Object → Json.Object → Prop
  | intro {parent : String} {selections : List Selection} {members output : Json.Object}
      {fields : List CollectedField}
      (hfields : Collects c (typename? members) parent selections fields)
      (hkeys : output.keys = responseKeys (visible fields)) (honce : output.keys.Nodup)
      (hpresent : ∀ p ∈ visible fields, ∀ v, members.get? p.1.responseKey = some v →
        ∀ w, output.get? p.1.responseKey = some w →
          Inhabits c p.1.type (mergedSelections (underKey p.1.responseKey (visible fields))) v w)
      (hmissing : ∀ p ∈ visible fields, members.get? p.1.responseKey = none →
        p.1.type.isNonNull = false ∧ output.get? p.1.responseKey = some .null) :
      Filled c parent selections members output

end

section Typing

variable {c : Context} {selections : List Selection} {value output : Json}

/-- Only `null` goes out as `null`. -/
theorem Inhabits.ne_null {type : FieldType} (h : Inhabits c type selections value output)
    (hv : value ≠ .null) : output ≠ .null := by
  cases h with
  | null => exact absurd rfl hv
  | nonNull _ ho _ => exact ho
  | float => exact hv
  | scalar => exact hv
  | _ => exact Json.noConfusion

/-- What is completed without selections inhabits its type. -/
theorem inhabits_of_leaf {type : FieldType} (htype : isLeaf c.schema type = true)
    (h : leaf? c.schema type value = some output) : Inhabits c type selections value output := by
  by_cases hnull : value = .null
  · subst hnull
    have hout : output = .null := by
      cases type <;> simp_all [leaf?]
    subst hout
    refine .null ?_
    cases type with
    | nonNull inner => cases htype
    | _ => rfl
  · cases type with
    | nonNull inner => cases htype
    | list item => cases htype
    | int =>
      cases value with
      | int i =>
        simp only [leaf?, Option.ite_none_right_eq_some, Option.some.injEq] at h
        obtain ⟨hi, rfl⟩ := h
        simp only [Json.isInt32, Bool.and_eq_true, decide_eq_true_eq] at hi
        exact .int hi.1 hi.2
      | _ => simp_all [leaf?, Json.isInt32]
    | float =>
      cases value with
      | int i =>
        simp only [leaf?, Option.ite_none_right_eq_some, Option.some.injEq] at h
        obtain ⟨hx, rfl⟩ := h
        exact .float hx
      | float x =>
        simp only [leaf?, Option.ite_none_right_eq_some, Option.some.injEq] at h
        obtain ⟨hx, rfl⟩ := h
        exact .float hx
      | _ => simp_all [leaf?, Json.isNumber]
    | boolean =>
      cases value with
      | bool b =>
        cases h
        exact .boolean
      | _ => simp_all [leaf?]
    | string =>
      cases value with
      | str s =>
        cases h
        exact .string
      | _ => simp_all [leaf?]
    | id =>
      cases value with
      | str s =>
        cases h
        exact .id
      | int i =>
        cases h
        exact .idInteger
      | _ => simp_all [leaf?]
    | named name =>
      cases hd : c.schema.type? name with
      | none => cases value <;> simp_all [leaf?]
      | some d =>
        cases d with
        | scalar described =>
          have hout : value = output := by
            cases value <;> simp_all [leaf?]
          subst hout
          exact .scalar hd
        | enum described words =>
          cases value with
          | str word =>
            simp only [leaf?, hd, Option.ite_none_right_eq_some, Option.some.injEq] at h
            obtain ⟨hw, rfl⟩ := h
            exact .enum hd (List.contains_iff_mem.mp hw)
          | _ => simp_all [leaf?]
        | _ => cases value <;> simp_all [leaf?]

/-- The steps of an object fill its output, if all values below it are completed so that they
    inhabit their types. -/
theorem filled_of_writeSteps {path : Path} {parent : String} {members output : Json.Object}
    (ih : ∀ key v, members.get? key = some v → ∀ path type selections w,
      UniformTypes c type.innerName selections →
        complete c path type selections v .null = .ok w → Inhabits c type selections v w)
    (ht : UniformTypes c parent selections)
    (h : writeSteps c path members (c.steps members parent selections) [] = .ok output) :
    Filled c parent selections members output := by
  obtain ⟨fields, hsteps⟩ := fields_of_writeSteps h
  have hcollects : Collects c (typename? members) parent selections fields :=
    collects_of_stepsTo hsteps
  rw [hsteps, writeSteps_eq_ok_iff_merged (ht parent selections .root _ fields hcollects)] at h
  obtain ⟨hpresent, hkeys, hwritten⟩ := h
  have hkeys : output.keys = responseKeys (visible fields) := hkeys.trans (addKeys_nil _)
  refine .intro hcollects hkeys (hkeys ▸ nodup_responseKeys _) ?_ ?_
  · intro p hp v hv w hw
    obtain ⟨u, hu, hwrites⟩ := hwritten p hp
    rw [hw] at hu
    cases hu
    rw [hv] at hwrites
    exact ih _ v hv _ _ _ w (ht.under hcollects hp) hwrites
  · intro p hp hnone
    obtain ⟨u, hu, hwrites⟩ := hwritten p hp
    rw [hnone] at hwrites
    have hnull : u = .null := hwrites
    subst hnull
    have hall := List.all_eq_true.mp hpresent p (List.mem_filter.mp hp).1
    exact ⟨by simpa [Entries.contains, hnone] using hall, hu⟩

/-- The items of a list are completed one by one. -/
theorem inhabits_of_completeItems {item : FieldType} {items : List Json}
    (ih : ∀ v ∈ items, ∀ path w, complete c path item selections v .null = .ok w →
      Inhabits c item selections v w) {path : Path} {index : Nat} {outputs : List Json}
    (h : completeItems c path item selections index items (List.replicate items.length .null) =
      .ok outputs) :
    ∀ (i : Nat) (v w : Json), items[i]? = some v → outputs[i]? = some w →
      Inhabits c item selections v w := by
  induction items generalizing index outputs with
  | nil =>
    intro i v w hv
    simp at hv
  | cons u rest ihr =>
    rw [completeItems_cons_eq_ok, List.length_cons, List.replicate_succ, List.headD_cons,
      List.tail_cons] at h
    obtain ⟨first, others, rfl, hfirst, hothers⟩ := h
    intro i v w hv hw
    cases i with
    | zero =>
      simp only [List.getElem?_cons_zero, Option.some.injEq] at hv hw
      subst hv hw
      exact ih u List.mem_cons_self _ first hfirst
    | succ i =>
      rw [List.getElem?_cons_succ] at hv hw
      exact ihr (fun v hv => ih v (List.mem_cons_of_mem _ hv)) hothers i v w hv hw

/-- Completion of a value gives an inhabitant of its type. -/
theorem inhabits_of_complete {path : Path} {type : FieldType}
    (ht : UniformTypes c type.innerName selections)
    (h : complete c path type selections value .null = .ok output) :
    Inhabits c type selections value output := by
  induction hn : sizeOf value using Nat.strongRecOn
    generalizing path type selections value output with
  | ind n ih =>
    -- lists and objects go down in the value, a non-null type stays at the same value
    induction type generalizing path output with
    | nonNull inner iht =>
      obtain ⟨hv, h⟩ := complete_nonNull_eq_ok.mp h
      have hne : value ≠ .null := by
        rintro rfl
        cases hv
      have hinner := iht ht h
      exact .nonNull hne (hinner.ne_null hne) hinner
    | list item _ =>
      rcases complete_list_eq_ok.mp h with ⟨rfl, rfl⟩ | ⟨items, outputs, rfl, rfl, hitems⟩
      · exact .null rfl
      · refine .list (length_completeItems hitems)
          (inhabits_of_completeItems (fun v hv path w hw => ?_) hitems)
        refine ih (sizeOf v) ?_ ht hw rfl
        have := List.sizeOf_lt_of_mem hv
        rw [← hn, Json.arr.sizeOf_spec]
        omega
    | named name =>
      cases hname : c.schema.isComposite name with
      | true =>
        rcases (complete_composite_eq_ok hname).mp h with
          ⟨rfl, rfl⟩ | ⟨members, output, rfl, rfl, hsteps⟩
        · exact .null rfl
        · refine .object hname (filled_of_writeSteps (fun key v hv path type selections w ht hw => ?_)
            ht hsteps)
          refine ih (sizeOf v) ?_ ht hw rfl
          have := Json.sizeOf_get?_lt hv
          rw [← hn, Json.obj.sizeOf_spec]
          omega
      | false =>
        have hleaf : isLeaf c.schema (.named name) = true := by simp [isLeaf, hname]
        exact inhabits_of_leaf hleaf ((complete_leaf_eq_ok hleaf).mp h)
    | _ => exact inhabits_of_leaf rfl ((complete_leaf_eq_ok rfl).mp h)

end Typing

/-! ## Whole responses -/

/-- Materialization gives an object for an object, filled by the selections: its keys are the
    response keys of the fields that apply and are not injected, each once, in order of first
    selection, and its values inhabit the declared types at every depth. -/
theorem materialize_filled {schema : Schema} {set : SelectionSet}
    {fragments : List FragmentDefinition}
    (ht : UniformTypes ⟨schema, fragments⟩ set.rootType set.selections) {data out : Json}
    (h : materialize schema set fragments data = .ok out) :
    ∃ members output, data = .obj members ∧ out = .obj output ∧
      Filled ⟨schema, fragments⟩ set.rootType set.selections members output := by
  cases data with
  | obj members =>
    simp only [materialize, bind_eq_ok, pure_eq_ok] at h
    obtain ⟨output, houtput, rfl⟩ := h
    exact ⟨members, output, rfl, rfl,
      filled_of_writeSteps (fun _ _ _ _ _ _ _ ht h => inhabits_of_complete ht h) ht houtput⟩
  | _ => cases h

theorem uniformTypes_squad :
    UniformTypes ⟨squadSchema, squadFragments⟩ "Query" (squadSet false).selections := by
  apply uniformTypes_of_allFields (allFields ((squadSet false).selections ++
    squadFragments.flatMap (·.selections)))
  · simp [squadSet, squadField, squadFragments, allFields]
  · simp [squadSet, squadField, squadFragments, allFields]
  · simp [squadSet, squadField, squadFragments, allFields, Field.responseKey]

/-- The integer of an identifier goes out as its text, and the names from the fragment behind it. -/
theorem materialize_filled_squad :
    materialize squadSchema (squadSet false) squadFragments (.obj squadData) =
        .ok (.obj [("squad", .arr [.obj [("id", .str "1"), ("name", .str "Luke")], .null])]) ∧
      Filled ⟨squadSchema, squadFragments⟩ "Query" (squadSet false).selections squadData
        [("squad", .arr [.obj [("id", .str "1"), ("name", .str "Luke")], .null])] := by
  have hok : materialize squadSchema (squadSet false) squadFragments (.obj squadData) =
      .ok (.obj [("squad", .arr [.obj [("id", .str "1"), ("name", .str "Luke")], .null])]) := by
    cbv
  obtain ⟨members, output, hm, ho, hfilled⟩ := materialize_filled uniformTypes_squad hok
  cases hm
  cases ho
  exact ⟨hok, hfilled⟩

end QueryShapes.Materialization
