/-
  What a type admits, read off a constant that it admits.

  `Gives` follows a constant of a type down to its parts, as coercion does: items
  of a list are given for its item type, entries of an input object for the types
  of its fields, and below a custom scalar nothing is said of the type.  For each
  kind of constant one lemma says what its being admitted comes to
  (`isFinite_of_acceptsLiteral`, `acceptsLiteral_enum`, `acceptsLiteral_list`,
  `acceptsLiteral_object`).
-/
import QueryShapes.Proofs.Entries
import QueryShapes.Schema.Coercion

namespace QueryShapes.Schema

variable {s : Schema}

/-! ## Items and entries -/

theorem acceptsLiterals_iff {type : FieldType} {items : List Literal} :
    s.acceptsLiterals type items = true ↔ ∀ l ∈ items, s.acceptsLiteral type l = true := by
  induction items with
  | nil => simp [acceptsLiterals]
  | cons l rest ih => rw [acceptsLiterals, Bool.and_eq_true, ih, List.forall_mem_cons]

/-- The fields that are there are admitted, and the required ones are there. -/
theorem acceptsEntries_iff {entries : Entries Literal} {fields : List ArgumentDefinition} :
    s.acceptsEntries entries fields = true ↔ ∀ f ∈ fields,
      (∀ l, entries.get? f.name = some l → s.acceptsLiteral f.type l = true) ∧
        (f.isRequired = true → f.name ∈ entries.keys) := by
  induction fields with
  | nil => simp [acceptsEntries]
  | cons f rest ih =>
    rw [acceptsEntries, Bool.and_eq_true, ih, List.forall_mem_cons, Entries.mem_keys_iff,
      Entries.contains]
    refine and_congr_left fun _ => ?_
    split
    · rename_i l hl
      simp [hl]
    · rename_i hnone
      simp [hnone]

/-! ## Wrappers -/

theorem acceptsLiteral_nonNull {inner : FieldType} {l : Literal} :
    s.acceptsLiteral (.nonNull inner) l = true ↔ l ≠ .null ∧ s.acceptsLiteral inner l = true := by
  cases l <;> simp [acceptsLiteral]

theorem acceptsLiteral_single {item : FieldType} {l : Literal} (hn : l ≠ .null)
    (hl : ∀ items, l ≠ .list items) :
    s.acceptsLiteral (.list item) l = s.acceptsLiteral item l := by
  cases l with
  | null => exact absurd rfl hn
  | list items => exact absurd rfl (hl items)
  | _ => rw [acceptsLiteral] <;> simp

/-! ## Parts and their types -/

/-- A constant of a type gives a part of it for another type. -/
inductive Gives (s : Schema) : FieldType → Literal → FieldType → Literal → Prop
  | self (type : FieldType) (l : Literal) : Gives s type l type l
  | nonNull {inner type : FieldType} {l part : Literal} (h : Gives s inner l type part) :
      Gives s (.nonNull inner) l type part
  | item {item type : FieldType} {items : List Literal} {l part : Literal} (hl : l ∈ items)
      (h : Gives s item l type part) : Gives s (.list item) (.list items) type part
  | single {item type : FieldType} {l part : Literal} (hl : ∀ items, l ≠ .list items)
      (h : Gives s item l type part) : Gives s (.list item) l type part
  | field {name inputName : String} {fields : List ArgumentDefinition} {f : ArgumentDefinition}
      {entries : Entries Literal} {l part : Literal} {type : FieldType}
      (ht : s.type? name = some (.inputObject inputName fields)) (hf : f ∈ fields)
      (hl : (f.name, l) ∈ entries) (h : Gives s f.type l type part) :
      Gives s (.named name) (.object entries) type part

theorem Gives.trans {type type' type'' : FieldType} {l l' l'' : Literal}
    (h : s.Gives type l type' l') (h' : s.Gives type' l' type'' l'') :
    s.Gives type l type'' l'' := by
  induction h with
  | self => exact h'
  | nonNull _ ih => exact .nonNull (ih h')
  | item hl _ ih => exact .item hl (ih h')
  | single hl _ ih => exact .single hl (ih h')
  | field ht hf hl _ ih => exact .field ht hf hl (ih h')

/-- A constant is admitted as one of the type below non-null wrappers, and below list wrappers
    unless it is a list. -/
theorem exists_bare {l : Literal} (hn : l ≠ .null) {type : FieldType}
    (h : s.acceptsLiteral type l = true) :
    ∃ bare, s.Gives type l bare l ∧ s.acceptsLiteral bare l = true ∧
      (∀ inner, bare ≠ .nonNull inner) ∧ ∀ item, bare = .list item → ∃ items, l = .list items := by
  induction type with
  | nonNull inner ih =>
    obtain ⟨bare, hgives, haccepts, hrest⟩ := ih (acceptsLiteral_nonNull.mp h).2
    exact ⟨bare, .nonNull hgives, haccepts, hrest⟩
  | list item ih =>
    by_cases hlist : ∃ items, l = .list items
    · exact ⟨.list item, .self _ _, h, by simp, fun _ _ => hlist⟩
    · have hsingle : ∀ items, l ≠ .list items := fun items heq => hlist ⟨items, heq⟩
      obtain ⟨bare, hgives, haccepts, hrest⟩ := ih (acceptsLiteral_single hn hsingle ▸ h)
      exact ⟨bare, .single hsingle hgives, haccepts, hrest⟩
  | _ => exact ⟨_, .self _ _, h, by simp, by simp⟩

/-! ## The kinds of constants -/

/-- A constant of a type that is given for a custom scalar as a whole. -/
def ForScalar (s : Schema) (type : FieldType) (l : Literal) : Prop :=
  ∃ name scalarName, s.type? name = some (.scalar scalarName) ∧ s.Gives type l (.named name) l

theorem isFinite_of_acceptsLiteral {type : FieldType} {x : Double}
    (h : s.acceptsLiteral type (.float x) = true) : x.isFinite = true := by
  obtain ⟨bare, -, haccepts, hnonNull, hlist⟩ := exists_bare (by simp) h
  cases bare with
  | nonNull inner => exact absurd rfl (hnonNull inner)
  | list item =>
    obtain ⟨items, heq⟩ := hlist item rfl
    cases heq
  | float => simpa only [acceptsLiteral] using haccepts
  | named name =>
    simp only [acceptsLiteral] at haccepts
    split at haccepts
    · simpa only [wellFormed] using haccepts
    all_goals cases haccepts
  | _ => simp [acceptsLiteral] at haccepts

/-- An enum value is well formed for a custom scalar, or one of an enum. -/
theorem acceptsLiteral_enum {type : FieldType} {word : String}
    (h : s.acceptsLiteral type (.enum word) = true) :
    s.ForScalar type (.enum word) ∧ wellFormed (.enum word) = true ∨
      ∃ name enumName values, s.type? name = some (.enum enumName values) ∧ word ∈ values := by
  obtain ⟨bare, hgives, haccepts, hnonNull, hlist⟩ := exists_bare (by simp) h
  cases bare with
  | nonNull inner => exact absurd rfl (hnonNull inner)
  | list item =>
    obtain ⟨items, heq⟩ := hlist item rfl
    cases heq
  | named name =>
    simp only [acceptsLiteral] at haccepts
    split at haccepts
    · rename_i ht
      exact Or.inl ⟨⟨name, _, ht, hgives⟩, haccepts⟩
    · rename_i ht
      exact Or.inr ⟨name, _, _, ht, List.contains_iff_mem.mp haccepts⟩
    all_goals cases haccepts
  | _ => simp [acceptsLiteral] at haccepts

/-- A list is well formed for a custom scalar, or all its items are admitted for one type. -/
theorem acceptsLiteral_list {type : FieldType} {items : List Literal}
    (h : s.acceptsLiteral type (.list items) = true) :
    s.ForScalar type (.list items) ∧ wellFormed (.list items) = true ∨
      ∃ item, s.Gives type (.list items) (.list item) (.list items) ∧
        ∀ l ∈ items, s.acceptsLiteral item l = true := by
  obtain ⟨bare, hgives, haccepts, hnonNull, -⟩ := exists_bare (by simp) h
  cases bare with
  | nonNull inner => exact absurd rfl (hnonNull inner)
  | list item =>
    simp only [acceptsLiteral] at haccepts
    exact Or.inr ⟨item, hgives, acceptsLiterals_iff.mp haccepts⟩
  | named name =>
    simp only [acceptsLiteral] at haccepts
    split at haccepts
    · rename_i ht
      exact Or.inl ⟨⟨name, _, ht, hgives⟩, haccepts⟩
    all_goals cases haccepts
  | _ => simp [acceptsLiteral] at haccepts

/-- An object is well formed for a custom scalar, or its entries are admitted for fields of an input
    object. -/
theorem acceptsLiteral_object {type : FieldType} {entries : Entries Literal}
    (hn : entries.keys.Nodup) (h : s.acceptsLiteral type (.object entries) = true) :
    s.ForScalar type (.object entries) ∧ wellFormed (.object entries) = true ∨
      ∃ name inputName fields, s.type? name = some (.inputObject inputName fields) ∧
        s.Gives type (.object entries) (.named name) (.object entries) ∧
          ∀ e ∈ entries, ∃ f ∈ fields, f.name = e.1 ∧ s.acceptsLiteral f.type e.2 = true := by
  obtain ⟨bare, hgives, haccepts, hnonNull, hlist⟩ := exists_bare (by simp) h
  cases bare with
  | nonNull inner => exact absurd rfl (hnonNull inner)
  | list item =>
    obtain ⟨items, heq⟩ := hlist item rfl
    cases heq
  | named name =>
    simp only [acceptsLiteral] at haccepts
    split at haccepts
    · rename_i ht
      exact Or.inl ⟨⟨name, _, ht, hgives⟩, haccepts⟩
    · cases haccepts
    · rename_i ht
      simp only [Bool.and_eq_true, List.all_eq_true, List.any_eq_true, beq_iff_eq] at haccepts
      refine Or.inr ⟨name, _, _, ht, hgives, fun e he => ?_⟩
      obtain ⟨f, hf, hname⟩ := haccepts.1 e he
      have hget : entries.get? f.name = some e.2 := hname ▸ Entries.get?_of_mem hn he
      exact ⟨f, hf, hname, (acceptsEntries_iff.mp haccepts.2 f hf).1 _ hget⟩
    · cases haccepts
  | _ => simp [acceptsLiteral] at haccepts

end QueryShapes.Schema
