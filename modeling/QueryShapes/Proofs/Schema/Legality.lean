/-
  Legal schemas: whatever has a name is called by a name of the language, and
  types are built of such names.

  A constant that a schema of valid names admits can be written down: its floats
  are finite, and its enum values and object keys are names
  (`wellFormed_of_acceptsLiteral`).
-/
import QueryShapes.Proofs.Literal.Equality

namespace QueryShapes

/-! ## Names -/

namespace Name

theorem isContinue_of_mem {name : String} (h : isValid name = true) :
    ∀ c ∈ name.toList, isContinue c = true := by
  unfold isValid at h
  cases hname : name.toList with
  | nil => simp
  | cons c rest =>
    rw [hname, isValidChars, Bool.and_eq_true, List.all_eq_true] at h
    refine List.forall_mem_cons.mpr ⟨?_, h.2⟩
    rw [isContinue, h.1, Bool.true_or]

theorem isValid_append {a b : String} (ha : isValid a = true)
    (hb : ∀ c ∈ b.toList, isContinue c = true) : isValid (a ++ b) = true := by
  unfold isValid at ha ⊢
  rw [String.toList_append]
  cases hname : a.toList with
  | nil =>
    rw [hname] at ha
    cases ha
  | cons c rest =>
    rw [hname, isValidChars, Bool.and_eq_true, List.all_eq_true] at ha
    rw [List.cons_append, isValidChars, Bool.and_eq_true, List.all_eq_true]
    refine ⟨ha.1, fun d hd => ?_⟩
    rcases List.mem_append.mp hd with hd | hd
    · exact ha.2 d hd
    · exact hb d hd

end Name

/-! ## Legal schemas -/

/-- Types that are built of names, lists and the required form of a type. -/
inductive FieldType.Built : FieldType → Prop
  | ofName {name : String} (h : Name.isValid name = true) : Built (ofName name)
  | list {item : FieldType} (h : Built item) : Built (.list item)
  | required {type : FieldType} (h : Built type) : Built type.required

structure ArgumentDefinition.Legal (d : ArgumentDefinition) : Prop where
  name : Name.isValid d.name = true
  type : d.type.Built

structure FieldDefinition.Legal (d : FieldDefinition) : Prop where
  name : Name.isValid d.name = true
  type : d.type.Built
  arguments : ∀ a ∈ d.arguments, a.Legal

def TypeDefinition.Legal : TypeDefinition → Prop
  | .object t | .interface t => ∀ e ∈ t.fields, e.2.Legal
  | .enum _ values => ∀ value ∈ values, Name.isValid value = true
  | .inputObject _ fields => ∀ f ∈ fields, f.Legal
  | .union _ _ | .scalar _ => True

/-- The names of all types, fields, arguments, input fields and enum values are names of the
    language, and the types of all fields, arguments and input fields are built of names. -/
def Schema.Legal (s : Schema) : Prop :=
  ∀ e ∈ s.types, Name.isValid e.1 = true ∧ e.2.Legal

def TypeDefinition.WellNamed : TypeDefinition → Prop
  | .object t | .interface t => ∀ e ∈ t.fields,
      Name.isValid e.2.name = true ∧ ∀ a ∈ e.2.arguments, Name.isValid a.name = true
  | .enum _ values => ∀ value ∈ values, Name.isValid value = true
  | .inputObject _ fields => ∀ f ∈ fields, Name.isValid f.name = true
  | .union _ _ | .scalar _ => True

instance : DecidablePred TypeDefinition.WellNamed
  | .object t | .interface t => inferInstanceAs (Decidable (∀ e ∈ t.fields,
      Name.isValid e.2.name = true ∧ ∀ a ∈ e.2.arguments, Name.isValid a.name = true))
  | .enum _ values => inferInstanceAs (Decidable (∀ value ∈ values, Name.isValid value = true))
  | .inputObject _ fields => inferInstanceAs (Decidable (∀ f ∈ fields, Name.isValid f.name = true))
  | .union _ _ | .scalar _ => inferInstanceAs (Decidable True)

/-- The names of all types, fields, arguments, input fields and enum values are names of the
    language. -/
def Schema.WellNamed (s : Schema) : Prop :=
  ∀ e ∈ s.types, Name.isValid e.1 = true ∧ e.2.WellNamed

instance (s : Schema) : Decidable s.WellNamed :=
  inferInstanceAs (Decidable (∀ e ∈ s.types, Name.isValid e.1 = true ∧ e.2.WellNamed))

namespace Schema

variable {s : Schema}

theorem Legal.wellNamed (hs : s.Legal) : s.WellNamed := by
  intro e he
  obtain ⟨hname, htype⟩ := hs e he
  refine ⟨hname, ?_⟩
  cases hd : e.2 with
  | object t =>
    rw [hd] at htype
    exact fun f hf => ⟨(htype f hf).name, fun a ha => ((htype f hf).arguments a ha).name⟩
  | interface t =>
    rw [hd] at htype
    exact fun f hf => ⟨(htype f hf).name, fun a ha => ((htype f hf).arguments a ha).name⟩
  | enum name values =>
    rw [hd] at htype
    exact htype
  | inputObject name fields =>
    rw [hd] at htype
    exact fun f hf => (htype f hf).name
  | union name members => trivial
  | scalar name => trivial

theorem WellNamed.composite (hs : s.WellNamed) {name : String} (h : s.isComposite name = true) :
    Name.isValid name = true := by
  unfold isComposite at h
  split at h
  · rename_i d hd
    exact (hs _ (Entries.mem_of_get? hd)).1
  · cases h

/-- A field that is found is one of an object type or interface of the schema. -/
theorem exists_type_of_field? {parent name : String} {d : FieldDefinition}
    (hd : s.field? parent name = some d) :
    ∃ e ∈ s.types, ∃ t, (e.2 = .object t ∨ e.2 = .interface t) ∧ ∃ f ∈ t.fields, f.2 = d := by
  unfold field? at hd
  obtain ⟨type, htype, hd⟩ := Option.bind_eq_some_iff.mp hd
  obtain ⟨t, ht, hd⟩ := Option.bind_eq_some_iff.mp hd
  refine ⟨_, Entries.mem_of_get? htype, t, ?_, _, Entries.mem_of_get? hd, rfl⟩
  cases type with
  | object t' =>
    cases ht
    exact Or.inl rfl
  | interface t' =>
    cases ht
    exact Or.inr rfl
  | _ => cases ht

theorem Legal.field (hs : s.Legal) {parent name : String} {d : FieldDefinition}
    (hd : s.field? parent name = some d) : d.Legal := by
  obtain ⟨e, he, t, ht, f, hf, rfl⟩ := exists_type_of_field? hd
  have htype := (hs e he).2
  rcases ht with ht | ht
  · rw [ht] at htype
    exact htype f hf
  · rw [ht] at htype
    exact htype f hf

theorem WellNamed.field (hs : s.WellNamed) {parent name : String} {d : FieldDefinition}
    (hd : s.field? parent name = some d) :
    Name.isValid d.name = true ∧ ∀ a ∈ d.arguments, Name.isValid a.name = true := by
  obtain ⟨e, he, t, ht, f, hf, rfl⟩ := exists_type_of_field? hd
  have htype := (hs e he).2
  rcases ht with ht | ht
  · rw [ht] at htype
    exact htype f hf
  · rw [ht] at htype
    exact htype f hf

/-! ## Admitted constants -/

theorem wellFormedItems_of_forall {items : List Literal}
    (h : ∀ l ∈ items, wellFormed l = true) : wellFormedItems items = true := by
  induction items with
  | nil => rw [wellFormedItems]
  | cons l rest ih =>
    rw [wellFormedItems, Bool.and_eq_true]
    exact ⟨h l List.mem_cons_self, ih fun m hm => h m (List.mem_cons_of_mem _ hm)⟩

theorem wellFormedEntries_of_forall {entries : List (String × Literal)}
    (h : ∀ e ∈ entries, Name.isValid e.1 = true ∧ wellFormed e.2 = true) :
    wellFormedEntries entries = true := by
  induction entries with
  | nil => rw [wellFormedEntries]
  | cons e rest ih =>
    rw [wellFormedEntries, Bool.and_eq_true, Bool.and_eq_true]
    exact ⟨h e List.mem_cons_self, ih fun m hm => h m (List.mem_cons_of_mem _ hm)⟩

theorem isValid_of_mem_entries {entries : List (String × Literal)}
    (h : wellFormedEntries entries = true) : ∀ e ∈ entries, Name.isValid e.1 = true := by
  induction entries with
  | nil => simp
  | cons e rest ih =>
    rw [wellFormedEntries, Bool.and_eq_true, Bool.and_eq_true] at h
    exact List.forall_mem_cons.mpr ⟨h.1.1, ih h.2⟩

/-- What an argument admits on a schema of valid names can be written down. -/
theorem wellFormed_of_acceptsLiteral (hs : s.WellNamed) {l : Literal} (hl : l.DistinctKeys)
    {type : FieldType} (h : s.acceptsLiteral type l = true) : wellFormed l = true := by
  induction hl generalizing type with
  | null => simp [wellFormed]
  | int i => simp [wellFormed]
  | float x =>
    rw [wellFormed]
    exact isFinite_of_acceptsLiteral h
  | string s => simp [wellFormed]
  | boolean b => simp [wellFormed]
  | enum name =>
    rcases acceptsLiteral_enum h with ⟨-, hwell⟩ | ⟨_, _, values, ht, hmem⟩
    · exact hwell
    · rw [wellFormed]
      exact (hs _ (Entries.mem_of_get? ht)).2 name hmem
  | list hitems ih =>
    rcases acceptsLiteral_list h with ⟨-, hwell⟩ | ⟨item, -, haccepts⟩
    · exact hwell
    · rw [wellFormed]
      exact wellFormedItems_of_forall fun l hl => ih l hl (haccepts l hl)
  | object hn hentries ih =>
    rcases acceptsLiteral_object hn h with ⟨-, hwell⟩ | ⟨_, _, fields, ht, -, haccepts⟩
    · exact hwell
    · rw [wellFormed]
      refine wellFormedEntries_of_forall fun e he => ?_
      obtain ⟨f, hf, hname, hentry⟩ := haccepts e he
      have hvalid : Name.isValid f.name = true := (hs _ (Entries.mem_of_get? ht)).2 f hf
      exact ⟨hname ▸ hvalid, ih e he hentry⟩

end Schema

end QueryShapes
