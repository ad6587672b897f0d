/-
  Analyzed trees are typed on their schema and mirror their shape.

  `SelectionsTyped` is the typing relation of selection lists, one rule for each
  kind of member.  A list stands on one parent type, has one selection for each
  member, in order, and perhaps the meta field behind them; every field is the
  declared one with its declared arguments, it has a sub-selection exactly if its
  type takes one, and every fragment is conditioned on a composite type that the
  parent type overlaps.  Resolution keeps to these rules at every depth
  (`resolveMembers_typed`), so analysis does (`analyze_typed`).
-/
import Mathlib.Data.List.Forall2
import Mathlib.Data.List.Nodup
import Mathlib.Data.List.Permutation
import QueryShapes.Proofs.Analysis.Arguments

namespace QueryShapes

/-- The fields of every object type and interface stand under their own names. -/
def Schema.KeyedFields (s : Schema) : Prop :=
  ∀ e ∈ s.types, ∀ t, e.2.objectType? = some t → ∀ f ∈ t.fields, f.2.name = f.1

theorem Schema.KeyedFields.name_eq {s : Schema} (h : s.KeyedFields) {parent name : String}
    {d : FieldDefinition} (hd : s.field? parent name = some d) : d.name = name := by
  unfold field? at hd
  obtain ⟨type, htype, hd⟩ := Option.bind_eq_some_iff.mp hd
  obtain ⟨t, ht, hd⟩ := Option.bind_eq_some_iff.mp hd
  exact h _ (Entries.mem_of_get? htype) t ht _ (Entries.mem_of_get? hd)

namespace Analysis

/-! ## The rules -/

/-- An argument entry of a declared argument: a constant of its type, a parameter that the
    operation declares, or nothing where nothing is required. -/
structure ArgumentTyped (s : Schema) (parameters : List String) (d : ArgumentDefinition)
    (a : FieldArgument) : Prop where
  name : a.name = d.name
  type : a.type = d.type
  declaredDefault : a.declaredDefault = d.defaultValue
  value : (∃ l, a.value = .literal l ∧ s.acceptsLiteral d.type l = true) ∨
    (∃ p ∈ parameters, a.value = .parameter p) ∨ (a.value = .default ∧ d.isRequired = false)

/-- A declared field of a parent type as a request asks for it. -/
structure FieldTyped (s : Schema) (parameters : List String) (parent : String)
    (request : FieldRequest) (f : Field) : Prop where
  name : f.name = request.name
  notMeta : f.name ≠ Name.typename
  aliasName : f.aliasName = request.aliasName
  validAlias : ∀ a, f.aliasName = some a → Name.isValid a = true
  parentType : f.parentType = parent
  requested : f.injected = false
  declared : ∃ d, s.field? parent f.name = some d ∧ f.type = d.type ∧
    List.Forall₂ (ArgumentTyped s parameters) d.arguments f.arguments

/-- The response keys of the fields that stand in a list itself. -/
def fieldKeys (selections : List Selection) : List String :=
  selections.filterMap fun
    | .field f _ => some f.responseKey
    | _ => none

/-- The meta field that is added behind a list. -/
def addedTypename (parent : String) : Selection := .field (Field.typename parent none true) []

section Rules

variable (s : Schema) (parameters : List String)

mutual

/-- The selection of one member on a parent type. -/
inductive MemberTyped : String → Member → Selection → Prop
  | typename {parent : String} {request : FieldRequest} (hn : request.name = Name.typename)
      (ha : ∀ a, request.aliasName = some a → Name.isValid a = true) :
      MemberTyped parent (.leaf request)
        (.field (Field.typename parent request.aliasName false) [])
  | leaf {parent : String} {request : FieldRequest} {f : Field}
      (hf : FieldTyped s parameters parent request f)
      (hc : s.isComposite f.type.innerName = false) :
      MemberTyped parent (.leaf request) (.field f [])
  | nested {parent : String} {request : FieldRequest} {ms : List Member} {f : Field}
      {subs : List Selection} (hf : FieldTyped s parameters parent request f)
      (hc : s.isComposite f.type.innerName = true)
      (hs : SelectionsTyped f.type.innerName ms subs) :
      MemberTyped parent (.nested request ms) (.field f subs)
  | reusing {parent : String} {request : FieldRequest} {fragment : FragmentHead}
      {ms : List Member} {f : Field} {subs : List Selection}
      (hf : FieldTyped s parameters parent request f)
      (hc : s.isComposite f.type.innerName = true)
      (hs : SelectionsTyped f.type.innerName [.spread fragment ms] subs) :
      MemberTyped parent (.reusing request fragment ms) (.field f subs)
  | spread {parent : String} {fragment : FragmentHead} {ms : List Member}
      {subs : List Selection} (hn : ∀ n, fragment.name = some n → Name.isValid n = true)
      (hc : s.isComposite fragment.onType = true)
      (ho : s.typesOverlap parent fragment.onType = true)
      (hs : SelectionsTyped fragment.onType ms subs) :
      MemberTyped parent (.spread fragment ms) (.marker fragment.name fragment.onType subs)
  | narrowed {parent condition : String} {ms : List Member} {subs : List Selection}
      (hc : s.isComposite condition = true) (ho : s.typesOverlap parent condition = true)
      (hs : SelectionsTyped condition ms subs) :
      MemberTyped parent (.narrowed condition ms) (.inline condition subs)

/-- The selections of the members of a list, one for each and in order. -/
inductive MembersTyped : String → List Member → List Selection → Prop
  | nil {parent : String} : MembersTyped parent [] []
  | cons {parent : String} {m : Member} {ms : List Member} {x : Selection}
      {xs : List Selection} (hm : MemberTyped parent m x) (hms : MembersTyped parent ms xs) :
      MembersTyped parent (m :: ms) (x :: xs)

/-- A whole selection list on a parent type: those of its members, of which there is one at
    least, and at most the meta field behind them; no two fields share a response key. -/
inductive SelectionsTyped : String → List Member → List Selection → Prop
  | list {parent : String} {ms : List Member} {body tail : List Selection} (hne : ms ≠ [])
      (hm : MembersTyped parent ms body) (ht : tail = [] ∨ tail = [addedTypename parent])
      (hk : (fieldKeys (body ++ tail)).Nodup) : SelectionsTyped parent ms (body ++ tail)

end

end Rules

variable {s : Schema} {parameters : List String}

theorem MembersTyped.ne_nil {parent : String} {ms : List Member} {body : List Selection}
    (h : MembersTyped s parameters parent ms body) (hne : ms ≠ []) : body ≠ [] := by
  cases h with
  | nil => exact absurd rfl hne
  | cons _ _ => exact List.cons_ne_nil _ _

/-- A typed selection list is not empty. -/
theorem SelectionsTyped.ne_nil {parent : String} {ms : List Member} {selections : List Selection}
    (h : SelectionsTyped s parameters parent ms selections) : selections ≠ [] := by
  cases h with
  | list hne hm _ _ => exact List.append_ne_nil_of_left_ne_nil (hm.ne_nil hne) _

/-! ## Arguments -/

theorem bindArgument_typed {coordinate : String} {supplied : Supplied} {d : ArgumentDefinition}
    {a : FieldArgument} (h : bindArgument s parameters coordinate supplied d = .ok a) :
    ArgumentTyped s parameters d a := by
  unfold bindArgument at h
  split at h
  · rename_i l hget
    split at h
    · rename_i haccepts
      cases h
      exact ⟨rfl, rfl, rfl, Or.inl ⟨l, rfl, haccepts⟩⟩
    · cases h
  · rename_i p hget
    split at h
    · rename_i hmem
      cases h
      exact ⟨rfl, rfl, rfl, Or.inr (Or.inl ⟨p, List.contains_iff_mem.mp hmem, rfl⟩)⟩
    · cases h
  · split at h
    · cases h
    · rename_i hrequired
      cases h
      exact ⟨rfl, rfl, rfl, Or.inr (Or.inr ⟨rfl, Bool.eq_false_iff.mpr hrequired⟩)⟩

/-- One entry for each declared argument, in the order of the declarations. -/
theorem bindEach_eq_ok {coordinate : String} {supplied : Supplied}
    {ds : List ArgumentDefinition} {as : List FieldArgument} :
    bindEach s parameters coordinate supplied ds = .ok as ↔
      List.Forall₂ (fun d a => bindArgument s parameters coordinate supplied d = .ok a) ds as := by
  induction ds generalizing as with
  | nil => simp [bindEach, eq_comm]
  | cons d rest ih =>
    rw [bindEach, List.forall₂_cons_left_iff]
    simp only [bind_eq_ok, pure_eq_ok, ih]
    constructor
    · rintro ⟨first, hfirst, others, hothers, rfl⟩
      exact ⟨first, others, hfirst, hothers, rfl⟩
    · rintro ⟨first, others, hfirst, hothers, rfl⟩
      exact ⟨first, hfirst, others, hothers, rfl⟩

theorem bindEach_typed {coordinate : String} {supplied : Supplied}
    {ds : List ArgumentDefinition} {as : List FieldArgument}
    (h : bindEach s parameters coordinate supplied ds = .ok as) :
    List.Forall₂ (ArgumentTyped s parameters) ds as :=
  (bindEach_eq_ok.mp h).imp fun _ _ => bindArgument_typed

theorem bindArguments_typed {coordinate : String} {definition : FieldDefinition}
    {positional : List ArgumentInput} {named : List (String × ArgumentInput)}
    {as : List FieldArgument}
    (h : bindArguments s parameters coordinate definition positional named = .ok as) :
    List.Forall₂ (ArgumentTyped s parameters) definition.arguments as := by
  unfold bindArguments at h
  split at h
  · simp [bind_eq_ok] at h
  · simp only [bind_eq_ok] at h
    obtain ⟨supplied, -, heach⟩ := h
    exact bindEach_typed heach

/-! ## Checks -/

theorem checkName_eq_ok {name : String} (h : checkName name = .ok ()) :
    Name.isValid name = true := by
  unfold checkName at h
  split at h
  · assumption
  · cases h

namespace Resolver

variable {r : Resolver} {parent : String} {depth : Nat} {taken : List String}

/-- A field whose alias, if it has one, is a name. -/
theorem validAlias_of_field {request : FieldRequest} {hasSelection isEmpty : Bool} {f : Field}
    (h : r.field parent request hasSelection isEmpty = .ok f) {a : String}
    (ha : request.aliasName = some a) : Name.isValid a = true := by
  unfold field at h
  rw [ha] at h
  simp only [bind_eq_ok] at h
  obtain ⟨⟨⟩, hname, -⟩ := h
  exact checkName_eq_ok hname

theorem checkFragment_eq_ok {fragment : FragmentHead} {isEmpty : Bool}
    (h : r.checkFragment parent fragment isEmpty = .ok ()) :
    (∀ n, fragment.name = some n → Name.isValid n = true) ∧
      r.schema.isComposite fragment.onType = true ∧ isEmpty = false ∧
      r.schema.typesOverlap parent fragment.onType = true := by
  unfold checkFragment at h
  cases hc : r.schema.isComposite fragment.onType <;> cases isEmpty <;>
    cases ho : r.schema.typesOverlap parent fragment.onType <;> cases hn : fragment.name <;>
    simp_all [bind_eq_ok]
  exact checkName_eq_ok h

theorem checkCondition_eq_ok {condition : String} {isEmpty : Bool}
    (h : r.checkCondition parent condition isEmpty = .ok ()) :
    r.schema.isComposite condition = true ∧ isEmpty = false ∧
      r.schema.typesOverlap parent condition = true := by
  unfold checkCondition at h
  cases hc : r.schema.isComposite condition <;> cases isEmpty <;>
    cases ho : r.schema.typesOverlap parent condition <;> simp_all [bind_eq_ok]

/-! ## Fields -/

/-- A field is the meta field without a sub-selection, or a declared one, which has a
    sub-selection exactly if its type takes one. -/
theorem field_typed (hk : r.schema.KeyedFields) {request : FieldRequest}
    {hasSelection isEmpty : Bool} {f : Field}
    (h : r.field parent request hasSelection isEmpty = .ok f) :
    (request.name = Name.typename ∧ hasSelection = false ∧
        f = Field.typename parent request.aliasName false) ∨
      (FieldTyped r.schema r.parameters parent request f ∧
        r.schema.isComposite f.type.innerName = hasSelection) := by
  have halias : ∀ a, request.aliasName = some a → Name.isValid a = true := fun a ha =>
    validAlias_of_field h ha
  by_cases hmeta : request.name = Name.typename
  · refine Or.inl ⟨hmeta, ?_⟩
    have hf := field_of_name h
    rw [if_pos hmeta] at hf
    refine ⟨?_, metaField_eq_ok hf⟩
    unfold metaField at hf
    cases hasSelection with
    | true => cases hf
    | false => rfl
  · have hf : r.declaredField parent request hasSelection isEmpty = .ok f :=
      (field_eq_ok h).resolve_left fun hf => hmeta hf.1
    obtain ⟨d, arguments, hd, hargs, htrue, hfalse, rfl⟩ := declaredField_eq_ok hf
    have hname := hk.name_eq hd
    refine Or.inr ⟨⟨hname, ?_, rfl, halias, rfl, rfl, d, ?_, rfl, bindArguments_typed hargs⟩, ?_⟩
    · rwa [hname]
    · rwa [hname]
    · cases hc : r.schema.isComposite d.type.innerName with
      | true => exact (htrue hc).1.symm
      | false => exact (hfalse hc).symm

/-! ## Lists -/

/-- No two fields of a list share a response key, and none has a key taken by an earlier one. -/
theorem nodup_fieldKeys_resolveMembers {members : List Member} {selections : List Selection}
    (h : r.resolveMembers parent depth taken members = .ok selections) :
    (fieldKeys selections).Nodup ∧ ∀ key ∈ fieldKeys selections, key ∉ taken := by
  induction members generalizing taken selections with
  | nil =>
    rw [resolveMembers_nil] at h
    cases h
    exact ⟨List.nodup_nil, fun key hkey => absurd hkey List.not_mem_nil⟩
  | cons m rest ih =>
    obtain ⟨x, taken', others, -, htake, hothers, rfl⟩ := resolveMembers_cons h
    obtain ⟨hnodup, hfree⟩ := ih hothers
    cases x with
    | field f subs =>
      have hkeys : fieldKeys (.field f subs :: others) = f.responseKey :: fieldKeys others := rfl
      unfold takeKey at htake
      dsimp only at htake
      split at htake
      · cases htake
      · rename_i hnew
        cases htake
        rw [List.contains_iff_mem] at hnew
        rw [hkeys]
        refine ⟨List.nodup_cons.mpr ⟨fun hmem => ?_, hnodup⟩, fun key hkey => ?_⟩
        · exact hfree _ hmem List.mem_cons_self
        · rcases List.mem_cons.mp hkey with rfl | hkey
          · exact hnew
          · exact fun ht => hfree key hkey (List.mem_cons_of_mem _ ht)
    | spread name condition =>
      cases htake
      exact ⟨hnodup, hfree⟩
    | inline condition subs =>
      cases htake
      exact ⟨hnodup, hfree⟩
    | marker name condition subs =>
      cases htake
      exact ⟨hnodup, hfree⟩

theorem hasKey_iff {key : String} {selections : List Selection} :
    selections.any (HasKey key) = true ↔ key ∈ fieldKeys selections := by
  unfold fieldKeys
  rw [List.any_eq_true, List.mem_filterMap]
  refine exists_congr fun x => and_congr_right fun _ => ?_
  cases x <;> simp [HasKey]

/-- A list with the meta field behind it, if it needs and lacks it, is typed if its members are. -/
theorem withTypename_typed {ms : List Member} {body : List Selection} (hne : ms ≠ [])
    (hm : MembersTyped s parameters parent ms body) (hk : (fieldKeys body).Nodup) :
    SelectionsTyped s parameters parent ms (withTypename parent body) := by
  unfold withTypename
  split
  · -- the list narrows its type and no field of it has the key of the meta field
    rename_i hadd
    rw [Bool.and_eq_true, Bool.not_eq_true'] at hadd
    have hfree : Name.typename ∉ fieldKeys body := by
      intro hmem
      rw [hasKey_iff.mpr hmem] at hadd
      cases hadd.2
    have hkeys : fieldKeys (body ++ [addedTypename parent]) =
        fieldKeys body ++ [Name.typename] := List.filterMap_append
    change SelectionsTyped s parameters parent ms (body ++ [addedTypename parent])
    refine .list hne hm (Or.inr rfl) ?_
    rw [hkeys, ← List.concat_eq_append]
    exact hk.concat hfree
  · rw [← List.append_nil body] at hk ⊢
    exact .list hne hm (Or.inl rfl) hk

/-- A list of one fragment is typed as soon as its content is. -/
theorem spread_typed {fragment : FragmentHead} {ms : List Member} {subs : List Selection}
    (hf : r.checkFragment parent fragment ms.isEmpty = .ok ())
    (hs : SelectionsTyped r.schema r.parameters fragment.onType ms subs) :
    MemberTyped r.schema r.parameters parent (.spread fragment ms)
      (.marker fragment.name fragment.onType subs) := by
  obtain ⟨hn, hc, -, ho⟩ := checkFragment_eq_ok hf
  exact .spread hn hc ho hs

/-- Resolution types the members of a list. -/
theorem resolveMembers_typed (hk : r.schema.KeyedFields) {members : List Member}
    {selections : List Selection}
    (h : r.resolveMembers parent depth taken members = .ok selections) :
    MembersTyped r.schema r.parameters parent members selections := by
  induction members using Member.listInduction generalizing parent depth taken selections with
  | nil =>
    rw [resolveMembers_nil] at h
    cases h
    exact .nil
  | leaf request rest ihr =>
    obtain ⟨x, taken', others, hx, -, ho, rfl⟩ := resolveMembers_cons h
    obtain ⟨f, hf, rfl⟩ := resolveMember_leaf hx
    refine .cons ?_ (ihr ho)
    rcases field_typed hk hf with ⟨hmeta, -, rfl⟩ | ⟨htyped, hc⟩
    · exact .typename hmeta fun a ha => validAlias_of_field hf ha
    · exact .leaf htyped hc
  | nested request ms rest ihs ihr =>
    obtain ⟨x, taken', others, hx, -, ho, rfl⟩ := resolveMembers_cons h
    obtain ⟨f, subs, hf, -, hsubs, rfl⟩ := resolveMember_nested hx
    refine .cons ?_ (ihr ho)
    rcases field_typed hk hf with ⟨-, hno, -⟩ | ⟨htyped, hc⟩
    · cases hno
    · have hne : ms ≠ [] := by
        rintro rfl
        obtain ⟨d, arguments, -, -, htrue, -, rfl⟩ :=
          declaredField_eq_ok ((field_eq_ok hf).resolve_left fun hm =>
            htyped.notMeta (htyped.name.trans hm.1))
        cases (htrue hc).2
      exact .nested htyped hc
        (withTypename_typed hne (ihs hsubs) (nodup_fieldKeys_resolveMembers hsubs).1)
  | reusing request fragment ms rest ihs ihr =>
    obtain ⟨x, taken', others, hx, -, ho, rfl⟩ := resolveMembers_cons h
    obtain ⟨f, subs, hf, hfragment, -, hsubs, rfl⟩ := resolveMember_reusing hx
    refine .cons ?_ (ihr ho)
    rcases field_typed hk hf with ⟨-, hno, -⟩ | ⟨htyped, hc⟩
    · cases hno
    · have hne : ms ≠ [] := by
        rintro rfl
        cases (checkFragment_eq_ok hfragment).2.2.1
      have hbody := withTypename_typed hne (ihs hsubs) (nodup_fieldKeys_resolveMembers hsubs).1
      -- the fragment stands alone in the list, so no response key repeats
      exact .reusing htyped hc
        (withTypename_typed (List.cons_ne_nil _ _)
          (.cons (spread_typed hfragment hbody) .nil) List.nodup_nil)
  | spread fragment ms rest ihs ihr =>
    obtain ⟨x, taken', others, hx, -, ho, rfl⟩ := resolveMembers_cons h
    obtain ⟨subs, hfragment, -, hsubs, rfl⟩ := resolveMember_spread hx
    have hne : ms ≠ [] := by
      rintro rfl
      cases (checkFragment_eq_ok hfragment).2.2.1
    exact .cons (spread_typed hfragment
      (withTypename_typed hne (ihs hsubs) (nodup_fieldKeys_resolveMembers hsubs).1)) (ihr ho)
  | narrowed condition ms rest ihs ihr =>
    obtain ⟨x, taken', others, hx, -, ho, rfl⟩ := resolveMembers_cons h
    obtain ⟨subs, hcondition, -, hsubs, rfl⟩ := resolveMember_narrowed hx
    obtain ⟨hc, hempty, hoverlap⟩ := checkCondition_eq_ok hcondition
    have hne : ms ≠ [] := by
      rintro rfl
      cases hempty
    exact .cons (.narrowed hc hoverlap
      (withTypename_typed hne (ihs hsubs) (nodup_fieldKeys_resolveMembers hsubs).1)) (ihr ho)

end Resolver

/-! ## Whole operations -/

/-- A shape that can be analyzed has a name, if any, that is one, and members. -/
theorem checks_of_analyze {schema : Schema} {shape : OperationShape} {limit : Nat}
    {set : SelectionSet} (h : analyze schema shape limit = .ok set) :
    (∀ n, shape.name = some n → Name.isValid n = true) ∧ shape.members ≠ [] := by
  unfold analyze at h
  split at h
  · exact absurd h throw_ne_ok
  · dsimp only at h
    cases hm : shape.members with
    | nil => split at h <;> simp [hm, bind_eq_ok] at h
    | cons m rest =>
      refine ⟨fun n hn => ?_, List.cons_ne_nil _ _⟩
      rw [hn] at h
      simp only [bind_eq_ok] at h
      obtain ⟨⟨⟩, hname, -⟩ := h
      exact checkName_eq_ok hname

/-- An analyzed operation has the kind and the name of its shape, and its selections are those of
    the shape's members, typed on the root type of the schema at every depth. -/
theorem analyze_typed {schema : Schema} (hk : schema.KeyedFields) {shape : OperationShape}
    {limit : Nat} {set : SelectionSet} (h : analyze schema shape limit = .ok set) :
    set.kind = shape.kind ∧ set.operationName = shape.name ∧
      schema.rootType? shape.kind = some set.rootType ∧
      SelectionsTyped schema shape.parameters set.rootType shape.members set.selections := by
  obtain ⟨root, subs, hroot, -, hsubs, rfl, -⟩ := analyze_eq_ok h
  have hmembers := Resolver.resolveMembers_typed hk hsubs
  have hkeys := (Resolver.nodup_fieldKeys_resolveMembers hsubs).1
  exact ⟨rfl, rfl, hroot,
    Resolver.withTypename_typed (checks_of_analyze h).2 hmembers hkeys⟩

/-! ## A crew of which some are droids -/

/-- A schema with the crew of a ship, some of whom are droids. -/
def crewSchema : Schema :=
  ⟨"Query", none, [
    ("Query", .object ⟨"Query", [],
      [("crew", ⟨"crew", .list (.named "Member"), [⟨"ship", .nonNull .id, none⟩]⟩)]⟩),
    ("Member", .interface ⟨"Member", [], [("name", ⟨"name", .nonNull .string, []⟩)]⟩),
    ("Droid", .object ⟨"Droid", ["Member"], [("name", ⟨"name", .nonNull .string, []⟩),
      ("model", ⟨"model", .string, [⟨"digits", .int, some (.int 2)⟩]⟩)]⟩)]⟩

/-- The names of a crew and the models of the droids among them. -/
def crewShape : OperationShape where
  kind := .query
  parameters := ["ship"]
  members := [.nested { name := "crew", positional := [.parameter "ship"] }
    [.leaf { name := "name" }, .narrowed "Droid" [.leaf { name := "model" }]]]

/-- The analyzed crew shape: the argument with a default is left out, and the list that is narrowed
    to droids has the meta field behind it. -/
def crewAnalyzed : SelectionSet :=
  ⟨.query, none, "Query", [
    .field ⟨"crew", none, "Query", .list (.named "Member"),
        [⟨"ship", .nonNull .id, .parameter "ship", none⟩], false⟩ [
      .field ⟨"name", none, "Member", .nonNull .string, [], false⟩ [],
      .inline "Droid" [.field ⟨"model", none, "Droid", .string,
        [⟨"digits", .int, .default, some (.int 2)⟩], false⟩ []],
      addedTypename "Member"]]⟩

theorem keyedFields_crew : crewSchema.KeyedFields := by
  simp [Schema.KeyedFields, crewSchema, TypeDefinition.objectType?]
  rintro a b (⟨rfl, rfl⟩ | ⟨rfl, rfl⟩) <;> rfl

theorem analyze_crew : analyze crewSchema crewShape 512 = .ok crewAnalyzed := by
  cbv

theorem analyze_typed_crew :
    crewSchema.KeyedFields ∧ analyze crewSchema crewShape 512 = .ok crewAnalyzed ∧
      SelectionsTyped crewSchema ["ship"] "Query" crewShape.members crewAnalyzed.selections :=
  ⟨keyedFields_crew, analyze_crew, (analyze_typed keyedFields_crew analyze_crew).2.2.2⟩

end Analysis

end QueryShapes
