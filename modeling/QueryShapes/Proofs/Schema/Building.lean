/-
  What a built schema holds.

  Definitions are entered one after the other, and a later one of the same name takes
  the place of an earlier one: for every name a schema has the last definition that was
  passed in, or a built-in scalar (`get?_types`).  A name that comes twice is refused
  unless it is that of a built-in scalar (`exists_define_iff`), and what the definitions
  that stay name has to be defined (`forall_references_iff`).  Together this says for
  every sequence of calls when a schema is built and what is in it (`build_ofCalls`):
  a definition gets lost only if it is one of two for a built-in scalar.
-/
import QueryShapes.Proofs.Entries
import QueryShapes.Proofs.Except
import QueryShapes.Schema.Builder

namespace QueryShapes

/-! ## What definitions name -/

/-- The other types that a definition names. -/
inductive TypeDefinition.Names : TypeDefinition → String → Prop
  | implemented {d : TypeDefinition} {t : ObjectType} (ht : d.objectType? = some t)
      {name : String} (h : name ∈ t.implements) : Names d name
  | field {d : TypeDefinition} {t : ObjectType} (ht : d.objectType? = some t)
      {f : FieldDefinition} (hf : f ∈ t.fields.values) : Names d f.type.innerName
  | argument {d : TypeDefinition} {t : ObjectType} (ht : d.objectType? = some t)
      {f : FieldDefinition} (hf : f ∈ t.fields.values) {a : ArgumentDefinition}
      (ha : a ∈ f.arguments) : Names d a.type.innerName
  | member {described name : String} {members : List String} (h : name ∈ members) :
      Names (.union described members) name
  | inputField {described : String} {fields : List ArgumentDefinition} {f : ArgumentDefinition}
      (hf : f ∈ fields) : Names (.inputObject described fields) f.type.innerName

namespace Schema

variable {s : Schema} {name : String} {d : TypeDefinition} {types types' : Entries TypeDefinition}
  {definitions rest : List TypeDefinition}

theorem references_objectType {t : ObjectType} (ht : d.objectType? = some t) :
    references d = t.implements.map (·, t.name) ++
      t.fields.values.flatMap fun f =>
        let coordinate := t.name ++ "." ++ f.name
        (f.type.innerName, coordinate) ::
          f.arguments.map fun a => (a.type.innerName, coordinate ++ "(" ++ a.name ++ ":)") := by
  cases d <;> cases ht <;> rfl

theorem names_of_mem_references {place : String} (h : (name, place) ∈ references d) :
    d.Names name := by
  cases ht : d.objectType? with
  | some t =>
    rw [references_objectType ht] at h
    rcases List.mem_append.mp h with h | h
    · obtain ⟨x, hx, heq⟩ := List.mem_map.mp h
      cases heq
      exact .implemented ht hx
    · obtain ⟨f, hf, h⟩ := List.mem_flatMap.mp h
      rcases List.mem_cons.mp h with heq | h
      · cases heq
        exact .field ht hf
      · obtain ⟨a, ha, heq⟩ := List.mem_map.mp h
        cases heq
        exact .argument ht hf ha
  | none =>
    cases d with
    | object t => cases ht
    | interface t => cases ht
    | union described members =>
      obtain ⟨x, hx, heq⟩ := List.mem_map.mp h
      cases heq
      exact .member hx
    | inputObject described fields =>
      obtain ⟨f, hf, heq⟩ := List.mem_map.mp h
      cases heq
      exact .inputField hf
    | enum described values => cases h
    | scalar described => cases h

theorem mem_references_of_names (h : d.Names name) : ∃ place, (name, place) ∈ references d := by
  cases h with
  | implemented ht h =>
    rw [references_objectType ht]
    exact ⟨_, List.mem_append_left _ (List.mem_map.mpr ⟨_, h, rfl⟩)⟩
  | field ht hf =>
    rw [references_objectType ht]
    exact ⟨_, List.mem_append_right _ (List.mem_flatMap.mpr ⟨_, hf, List.mem_cons_self⟩)⟩
  | argument ht hf ha =>
    rw [references_objectType ht]
    exact ⟨_, List.mem_append_right _ (List.mem_flatMap.mpr ⟨_, hf,
      List.mem_cons_of_mem _ (List.mem_map.mpr ⟨_, ha, rfl⟩)⟩)⟩
  | member h => exact ⟨_, List.mem_map.mpr ⟨_, h, rfl⟩⟩
  | inputField hf => exact ⟨_, List.mem_map.mpr ⟨_, hf, rfl⟩⟩

/-- The references of a definition are the names in it, each with a place. -/
theorem exists_references_iff : (∃ place, (name, place) ∈ references d) ↔ d.Names name :=
  ⟨fun ⟨_, h⟩ => names_of_mem_references h, mem_references_of_names⟩

/-! ## Entering definitions -/

/-- The last of the definitions that has the name. -/
def lastNamed? (definitions : List TypeDefinition) (name : String) : Option TypeDefinition :=
  definitions.reverse.find? (·.name = name)

theorem lastNamed?_cons : lastNamed? (d :: rest) name =
    (lastNamed? rest name).or (if d.name = name then some d else none) := by
  unfold lastNamed?
  rw [List.reverse_cons, List.find?_append]
  by_cases hd : d.name = name <;> simp [hd]

theorem lastNamed?_isSome : (lastNamed? definitions name).isSome = true ↔
    ∃ d ∈ definitions, d.name = name := by
  simp [lastNamed?, List.find?_isSome]

theorem name_of_lastNamed? (h : lastNamed? definitions name = some d) : d.name = name := by
  simpa using List.find?_some h

theorem mem_of_lastNamed? (h : lastNamed? definitions name = some d) : d ∈ definitions :=
  List.mem_reverse.mp (List.mem_of_find?_eq_some h)

/-- Where no two definitions have a name in common, each is the last of its name. -/
theorem lastNamed?_of_mem (hn : definitions.Pairwise fun d e => d.name ≠ e.name)
    (hd : d ∈ definitions) : lastNamed? definitions d.name = some d := by
  induction definitions with
  | nil => cases hd
  | cons first rest ih =>
    obtain ⟨hfirst, hrest⟩ := List.pairwise_cons.mp hn
    rw [lastNamed?_cons]
    rcases List.mem_cons.mp hd with rfl | hd
    · have hnone : lastNamed? rest d.name = none := by
        rw [← Option.isNone_iff_eq_none, ← Option.not_isSome, Bool.not_eq_true',
          Bool.eq_false_iff, ne_eq, lastNamed?_isSome]
        rintro ⟨e, he, heq⟩
        exact hfirst e he heq.symm
      rw [hnone, if_pos rfl]
      rfl
    · rw [ih hrest hd]
      rfl

/-- One definition is entered if its name is new or that of a built-in scalar. -/
theorem define_cons_eq_ok : define types (d :: rest) = .ok types' ↔
    (types.contains d.name = true → d.name ∈ builtinScalars) ∧
      define (types.insert d.name d) rest = .ok types' := by
  rw [define]
  split
  · rename_i h
    refine iff_of_false (by simp) ?_
    rintro ⟨hbuiltin, -⟩
    exact h.2 (List.contains_iff_mem.mpr (hbuiltin h.1))
  · rename_i h
    refine (and_iff_right fun hc => ?_).symm
    by_contra hbuiltin
    exact h ⟨hc, fun hmem => hbuiltin (List.contains_iff_mem.mp hmem)⟩

/-- Definitions are refused exactly if a name comes twice that is none of a built-in scalar. -/
theorem exists_define_iff : (∃ types', define types definitions = .ok types') ↔
    (definitions.Pairwise fun d e => d.name = e.name → d.name ∈ builtinScalars) ∧
      ∀ d ∈ definitions, types.contains d.name = true → d.name ∈ builtinScalars := by
  -- The definitions before count with `types`, so that a pair shows when its second one is entered.
  induction definitions generalizing types with
  | nil => exact ⟨fun _ => ⟨.nil, fun d hd => absurd hd List.not_mem_nil⟩, fun _ => ⟨types, rfl⟩⟩
  | cons d rest ih =>
    simp only [define_cons_eq_ok, exists_and_left, ih, List.pairwise_cons, List.forall_mem_cons,
      Entries.contains_insert, Bool.or_eq_true, beq_iff_eq]
    constructor
    · rintro ⟨hd, hpairs, hrest⟩
      refine ⟨⟨fun e he heq => heq ▸ hrest e he (Or.inl heq), hpairs⟩, hd, fun e he hc => ?_⟩
      exact hrest e he (Or.inr hc)
    · rintro ⟨⟨hfirst, hpairs⟩, hd, hrest⟩
      refine ⟨hd, hpairs, fun e he => ?_⟩
      rintro (heq | hc)
      · exact heq ▸ hfirst e he heq
      · exact hrest e he hc

/-- What is entered last under a name is found under it. -/
theorem get?_define (h : define types definitions = .ok types') (name : String) :
    types'.get? name = (lastNamed? definitions name).or (types.get? name) := by
  induction definitions generalizing types with
  | nil =>
    cases h
    rfl
  | cons d rest ih =>
    rw [ih (define_cons_eq_ok.mp h).2, lastNamed?_cons, Entries.get?_insert, Option.or_assoc]
    by_cases hd : d.name = name <;> simp [hd]

theorem nodup_keys_define (h : define types definitions = .ok types') (hn : types.keys.Nodup) :
    types'.keys.Nodup := by
  induction definitions generalizing types with
  | nil =>
    cases h
    exact hn
  | cons d rest ih => exact ih (define_cons_eq_ok.mp h).2 (Entries.nodup_keys_insert hn _ _)

theorem get?_builtins (name : String) :
    builtins.get? name = if name ∈ builtinScalars then some (.scalar name) else none := by
  have hfrom : ∀ names : List String,
      Entries.get? (names.map fun name => (name, TypeDefinition.scalar name)) name =
        if name ∈ names then some (.scalar name) else none := by
    intro names
    induction names with
    | nil => rfl
    | cons first names ih =>
      rw [List.map_cons, Entries.get?_cons, ih]
      by_cases hname : first = name
      · subst hname
        simp
      · simp [hname, Ne.symm hname]
  exact hfrom builtinScalars

/-! ## References -/

/-- A check of a schema passes exactly if its query root is an object type and what it uses is
    defined. -/
theorem checkReferences_eq_ok : s.checkReferences = .ok () ↔
    (∃ t, s.type? s.queryType = some (.object t)) ∧
      ∀ x ∈ s.allReferences, s.types.contains x.1 = true := by
  unfold checkReferences
  split
  · rename_i t ht
    rw [and_iff_right ⟨t, ht⟩]
    split
    · rename_i x name place hfound
      refine iff_of_false (by simp) fun hall => ?_
      have hmissing := List.find?_some hfound
      rw [hall _ (List.mem_of_find?_eq_some hfound)] at hmissing
      cases hmissing
    · rename_i hnone
      refine iff_of_true rfl fun x hx => ?_
      simpa using List.find?_eq_none.mp hnone x hx
  · rename_i hno
    refine iff_of_false (by simp) ?_
    rintro ⟨⟨t, ht⟩, -⟩
    exact hno t ht

/-- What a schema uses is its mutation root and what its definitions name. -/
theorem forall_references_iff : (∀ x ∈ s.allReferences, s.types.contains x.1 = true) ↔
    (∀ name, s.mutationType = some name → s.types.contains name = true) ∧
      ∀ d ∈ s.types.values, ∀ name, d.Names name → s.types.contains name = true := by
  unfold allReferences
  simp only [List.forall_mem_append, List.forall_mem_flatMap, ← exists_references_iff,
    forall_exists_index, Prod.forall]
  refine and_congr ?_ ⟨fun h d hd name place => h d hd name place, fun h d hd name place =>
    h d hd name place⟩
  cases s.mutationType <;> simp

end Schema

/-! ## Building -/

namespace SchemaBuilder

open Schema

variable {b : SchemaBuilder} {s : Schema} {types : Entries TypeDefinition} {name : String}
  {d : TypeDefinition}

/-- A definition that no later one of its name replaces. -/
def Keeps (b : SchemaBuilder) (d : TypeDefinition) : Prop :=
  lastNamed? b.definitions d.name = some d

/-- A name of a definition or of a built-in scalar. -/
def Defines (b : SchemaBuilder) (name : String) : Prop :=
  name ∈ builtinScalars ∨ ∃ d ∈ b.definitions, d.name = name

/-- What a builder must have been given for a schema to be built. -/
structure Buildable (b : SchemaBuilder) : Prop where
  distinct : b.definitions.Pairwise fun d e => d.name = e.name → d.name ∈ builtinScalars
  root : ∃ t, b.Keeps (.object t) ∧ t.name = b.queryType
  mutation : ∀ name, b.mutationType = some name → b.Defines name
  closed : ∀ d, b.Keeps d → ∀ name, d.Names name → b.Defines name

/-- A schema with the roots of a builder, the definitions that stay, and built-in scalars for the
    other names. -/
structure Builds (b : SchemaBuilder) (s : Schema) : Prop where
  queryType : s.queryType = b.queryType
  mutationType : s.mutationType = b.mutationType
  kept : ∀ d, b.Keeps d → s.type? d.name = some d
  others : ∀ name d, s.type? name = some d →
    b.Keeps d ∧ d.name = name ∨ name ∈ builtinScalars ∧ d = .scalar name
  nodup : s.types.keys.Nodup

theorem build_eq_ok : b.build = .ok s ↔ ∃ types, define builtins b.definitions = .ok types ∧
    s = ⟨b.queryType, b.mutationType, types⟩ ∧ s.checkReferences = .ok () := by
  unfold build
  simp only [bind_eq_ok, pure_eq_ok]
  constructor
  · rintro ⟨types, htypes, ⟨⟩, hcheck, rfl⟩
    exact ⟨types, htypes, rfl, hcheck⟩
  · rintro ⟨types, htypes, rfl, hcheck⟩
    exact ⟨types, htypes, (), hcheck, rfl⟩

/-- Every name that a built schema uses is defined. -/
theorem contains_of_build (h : b.build = .ok s) :
    (∀ name, s.mutationType = some name → s.types.contains name = true) ∧
      ∀ d ∈ s.types.values, ∀ name, d.Names name → s.types.contains name = true := by
  obtain ⟨types, -, -, hcheck⟩ := build_eq_ok.mp h
  exact forall_references_iff.mp (checkReferences_eq_ok.mp hcheck).2

/-- Under every name stands the last definition of the name, or else a built-in scalar. -/
theorem get?_types (h : define builtins b.definitions = .ok types) (name : String) :
    types.get? name = (lastNamed? b.definitions name).or
      (if name ∈ builtinScalars then some (.scalar name) else none) := by
  rw [get?_define h, get?_builtins]

theorem contains_types (h : define builtins b.definitions = .ok types) :
    types.contains name = true ↔ b.Defines name := by
  unfold Entries.contains Defines
  rw [get?_types h, Option.isSome_or, Bool.or_eq_true, lastNamed?_isSome, or_comm]
  refine or_congr_left ?_
  by_cases hname : name ∈ builtinScalars <;> simp [hname]

theorem nodup_types (h : define builtins b.definitions = .ok types) : types.keys.Nodup :=
  nodup_keys_define h (by decide)

theorem get?_types_of_keeps (h : define builtins b.definitions = .ok types) (hd : b.Keeps d) :
    types.get? d.name = some d := by
  rw [get?_types h, hd]
  rfl

theorem get?_types_cases (h : define builtins b.definitions = .ok types)
    (hd : types.get? name = some d) :
    b.Keeps d ∧ d.name = name ∨ name ∈ builtinScalars ∧ d = .scalar name := by
  rw [get?_types h, Option.or_eq_some_iff] at hd
  rcases hd with hlast | ⟨-, hd⟩
  · have hname := name_of_lastNamed? hlast
    refine Or.inl ⟨?_, hname⟩
    unfold Keeps
    rwa [hname]
  · split at hd
    · rename_i hmem
      cases hd
      exact Or.inr ⟨hmem, rfl⟩
    · cases hd

/-- The definitions of a built schema are those that stay and built-in scalars. -/
theorem mem_values_cases (h : define builtins b.definitions = .ok types)
    (hd : d ∈ types.values) : b.Keeps d ∨ ∃ name, d = .scalar name := by
  obtain ⟨⟨key, d⟩, hmem, rfl⟩ := List.mem_map.mp hd
  rcases get?_types_cases h (Entries.get?_of_mem (nodup_types h) hmem) with hkeeps | ⟨-, hscalar⟩
  · exact Or.inl hkeeps.1
  · exact Or.inr ⟨key, hscalar⟩

theorem mem_values_of_keeps (h : define builtins b.definitions = .ok types) (hd : b.Keeps d) :
    d ∈ types.values :=
  List.mem_map.mpr ⟨_, Entries.mem_of_get? (get?_types_of_keeps h hd), rfl⟩

theorem builds_of_build (h : b.build = .ok s) : b.Builds s := by
  obtain ⟨types, hdefine, rfl, -⟩ := build_eq_ok.mp h
  exact ⟨rfl, rfl, fun d hd => get?_types_of_keeps hdefine hd,
    fun name d hd => get?_types_cases hdefine hd, nodup_types hdefine⟩

theorem buildable_of_build (h : b.build = .ok s) : b.Buildable := by
  obtain ⟨hmutation, hnames⟩ := contains_of_build h
  obtain ⟨types, hdefine, rfl, hcheck⟩ := build_eq_ok.mp h
  obtain ⟨t, ht⟩ := (checkReferences_eq_ok.mp hcheck).1
  refine ⟨(exists_define_iff.mp ⟨types, hdefine⟩).1, ⟨t, ?_⟩, ?_, ?_⟩
  · rcases get?_types_cases hdefine ht with hkeeps | ⟨-, hscalar⟩
    · exact hkeeps
    · cases hscalar
  · intro name hname
    exact (contains_types hdefine).mp (hmutation name hname)
  · intro d hd name hname
    exact (contains_types hdefine).mp (hnames d (mem_values_of_keeps hdefine hd) name hname)

theorem exists_build_of_buildable (h : b.Buildable) : ∃ s, b.build = .ok s := by
  have hnew : ∀ d ∈ b.definitions, builtins.contains d.name = true → d.name ∈ builtinScalars := by
    intro d _ hc
    unfold Entries.contains at hc
    rw [get?_builtins] at hc
    by_contra hname
    rw [if_neg hname] at hc
    cases hc
  obtain ⟨types, hdefine⟩ := exists_define_iff.mpr ⟨h.distinct, hnew⟩
  refine ⟨_, build_eq_ok.mpr ⟨types, hdefine, rfl, checkReferences_eq_ok.mpr ⟨?_, ?_⟩⟩⟩
  · obtain ⟨t, hkeeps, hname⟩ := h.root
    have hroot := get?_types_of_keeps hdefine hkeeps
    rw [TypeDefinition.name, hname] at hroot
    exact ⟨t, hroot⟩
  · refine forall_references_iff.mpr ⟨?_, ?_⟩
    · intro name hname
      exact (contains_types hdefine).mpr (h.mutation name hname)
    · intro d hd name hname
      rcases mem_values_cases hdefine hd with hkeeps | ⟨described, rfl⟩
      · exact (contains_types hdefine).mpr (h.closed d hkeeps name hname)
      -- A built-in scalar names nothing.
      · cases hname with
        | implemented ht _ => cases ht
        | field ht _ => cases ht
        | argument ht _ _ => cases ht

end SchemaBuilder

/-! ## Calls -/

/-- The definition that a call passes in. -/
def BuilderCall.definition? : BuilderCall → Option TypeDefinition
  | .definition d => some d
  | .queryType _ | .mutationType _ => none

namespace SchemaBuilder

open Schema

/-- A builder holds the definitions that were passed in, in order. -/
theorem definitions_ofCalls (calls : List BuilderCall) :
    (ofCalls calls).definitions = calls.filterMap BuilderCall.definition? := by
  have hfrom : ∀ b : SchemaBuilder, (calls.foldl call b).definitions =
      b.definitions ++ calls.filterMap BuilderCall.definition? := by
    induction calls with
    | nil => simp
    | cons c calls ih =>
      intro b
      rw [List.foldl_cons, ih]
      cases c with
      | queryType name => rfl
      | mutationType name => rfl
      | definition d => simp [call, BuilderCall.definition?]
  exact hfrom {}

/-- Whatever the calls and their order: a schema is built exactly if no two definitions passed in
    have the same name unless it is that of a built-in scalar, the query root is an object type
    among those that stay, and the mutation root and what the definitions that stay name is defined
    or a built-in scalar.  The schema has the definitions that stay under their names, built-in
    scalars besides, and each name once.  If no two definitions have the same name, all of them
    stay. -/
theorem build_ofCalls (calls : List BuilderCall) :
    (ofCalls calls).definitions = calls.filterMap BuilderCall.definition? ∧
      ((∃ s, (ofCalls calls).build = .ok s) ↔ (ofCalls calls).Buildable) ∧
      (∀ s, (ofCalls calls).build = .ok s → (ofCalls calls).Builds s) ∧
      (((ofCalls calls).definitions.Pairwise fun d e => d.name ≠ e.name) →
        ∀ d, (ofCalls calls).Keeps d ↔ d ∈ (ofCalls calls).definitions) := by
  refine ⟨definitions_ofCalls calls, ⟨?_, exists_build_of_buildable⟩, ?_, ?_⟩
  · rintro ⟨s, hs⟩
    exact buildable_of_build hs
  · intro s hs
    exact builds_of_build hs
  · intro hn d
    constructor
    · exact mem_of_lastNamed?
    · exact lastNamed?_of_mem hn

/-! ## Reviews -/

/-- A schema of reviews: a root by a name of its own, a mutation that takes an input object, and a
    scalar of its own beside the built-in ones. -/
def reviewCalls : List BuilderCall :=
  [.definition (.inputObject "ReviewInput" [⟨"stars", .nonNull .int, none⟩,
      ⟨"on", .named "Date", none⟩]),
    .mutationType "Mutation", .queryType "Root",
    .definition (.object ⟨"Mutation", [],
      [("rate", ⟨"rate", .string, [⟨"review", .nonNull (.named "ReviewInput"), none⟩]⟩)]⟩),
    .definition (.scalar "Date"),
    .definition (.object ⟨"Root", [], [("today", ⟨"today", .named "Date", []⟩)]⟩)]

/-- The names of the reviews are distinct and defined, so they build a schema of all of them. -/
theorem build_ofCalls_review :
    ((ofCalls reviewCalls).definitions.Pairwise fun d e => d.name ≠ e.name) ∧
      ∃ s, (ofCalls reviewCalls).build = .ok s ∧ (ofCalls reviewCalls).Buildable ∧
        ∀ d ∈ (ofCalls reviewCalls).definitions, s.type? d.name = some d := by
  have hdistinct : (ofCalls reviewCalls).definitions.Pairwise fun d e => d.name ≠ e.name := by
    simp [reviewCalls, ofCalls, call, TypeDefinition.name]
  obtain ⟨-, hbuildable, hbuilds, hkeeps⟩ := build_ofCalls reviewCalls
  obtain ⟨s, hs⟩ : ∃ s, (ofCalls reviewCalls).build = .ok s := ⟨_, rfl⟩
  exact ⟨hdistinct, s, hs, hbuildable.mp ⟨s, hs⟩, fun d hd =>
    (hbuilds s hs).kept d ((hkeeps hdistinct d).mpr hd)⟩

/-! ## A built-in scalar defined twice -/

/-- A query root, and `ID` first as a scalar and then as an enum. -/
def idTwice : List BuilderCall :=
  [.definition (.object ⟨"Query", [], [("id", ⟨"id", .id, []⟩)]⟩),
    .definition (.scalar "ID"), .definition (.enum "ID" ["A"])]

/-- The enum takes the place of the scalar without an error, so a definition passed in is lost. -/
theorem idTwice_loses_scalar :
    ∃ s, (ofCalls idTwice).build = .ok s ∧
      ¬ ((ofCalls idTwice).definitions.Pairwise fun d e => d.name ≠ e.name) ∧
      .scalar "ID" ∈ (ofCalls idTwice).definitions ∧
      s.type? "ID" = some (.enum "ID" ["A"]) := by
  refine ⟨_, rfl, ?_, by simp [idTwice, ofCalls, call], rfl⟩
  simp [idTwice, ofCalls, call, TypeDefinition.name]

end SchemaBuilder

end QueryShapes
