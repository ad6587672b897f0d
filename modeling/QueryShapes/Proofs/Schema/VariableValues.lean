/-
  Variable values: what a type admits of JSON, and what coerces to it.

  `Coerces` is input coercion as the language has it, one rule for each kind of type
  and value.  `Reads` follows a value of a type down to the parts that coercion looks
  at: items of a list are read as the item type, members of an input object as the
  types of its fields, and nothing below a custom scalar.  Both go down together
  (`Coerces.of_reads`, `acceptsValue_of_reads`).  What is admitted coerces exactly if
  none of its input objects has a member that is no field of it, for that is not
  looked at; and what coerces is admitted, unless an integer given for an id is no
  signed 32-bit one (`coerces_iff_onlyDeclared`).
-/
import QueryShapes.Proofs.Entries
import QueryShapes.Schema.Coercion

namespace QueryShapes.Schema

/-! ## Input coercion -/

/-- A value coerces to a type.  A single value stands for a list of one. -/
inductive Coerces (s : Schema) : FieldType → Json → Prop
  | null {type : FieldType} (h : type.isNonNull = false) : Coerces s type .null
  | nonNull {inner : FieldType} {v : Json} (hv : v ≠ .null) (h : Coerces s inner v) :
      Coerces s (.nonNull inner) v
  | string (x : String) : Coerces s .string (.str x)
  | int {i : Int} (h : -0x80000000 ≤ i ∧ i < 0x80000000) : Coerces s .int (.int i)
  | float {v : Json} (h : v.isNumber = true) : Coerces s .float v
  | idString (x : String) : Coerces s .id (.str x)
  | idInt (i : Int) : Coerces s .id (.int i)
  | boolean (b : Bool) : Coerces s .boolean (.bool b)
  | list {item : FieldType} {items : List Json} (h : ∀ v ∈ items, Coerces s item v) :
      Coerces s (.list item) (.arr items)
  | single {item : FieldType} {v : Json} (hn : v ≠ .null) (hv : ∀ items, v ≠ .arr items)
      (h : Coerces s item v) : Coerces s (.list item) v
  | scalar {name scalarName : String} (ht : s.type? name = some (.scalar scalarName)) (v : Json) :
      Coerces s (.named name) v
  | enum {name enumName word : String} {values : List String}
      (ht : s.type? name = some (.enum enumName values)) (h : word ∈ values) :
      Coerces s (.named name) (.str word)
  | inputObject {name inputName : String} {fields : List ArgumentDefinition}
      {members : Json.Object} (ht : s.type? name = some (.inputObject inputName fields))
      (hdeclared : ∀ key ∈ members.keys, ∃ f ∈ fields, f.name = key)
      (hrequired : ∀ f ∈ fields, f.isRequired = true → f.name ∈ members.keys)
      (h : ∀ f ∈ fields, ∀ v, members.get? f.name = some v → Coerces s f.type v) :
      Coerces s (.named name) (.obj members)

/-- Reading a value as one of a type comes to reading a part of it as one of another type. -/
inductive Reads (s : Schema) : FieldType → Json → FieldType → Json → Prop
  | self (type : FieldType) (v : Json) : Reads s type v type v
  | nonNull {inner type : FieldType} {v part : Json} (h : Reads s inner v type part) :
      Reads s (.nonNull inner) v type part
  | item {item type : FieldType} {items : List Json} {v part : Json} (hv : v ∈ items)
      (h : Reads s item v type part) : Reads s (.list item) (.arr items) type part
  | single {item type : FieldType} {v part : Json} (hn : v ≠ .null) (hv : ∀ items, v ≠ .arr items)
      (h : Reads s item v type part) : Reads s (.list item) v type part
  | field {name inputName : String} {fields : List ArgumentDefinition} {f : ArgumentDefinition}
      {members : Json.Object} {v part : Json} {type : FieldType}
      (ht : s.type? name = some (.inputObject inputName fields)) (hf : f ∈ fields)
      (hv : members.get? f.name = some v) (h : Reads s f.type v type part) :
      Reads s (.named name) (.obj members) type part

/-- Whatever is read as an input object has declared members only. -/
def OnlyDeclared (s : Schema) (type : FieldType) (v : Json) : Prop :=
  ∀ name inputName fields (members : Json.Object), s.Reads type v (.named name) (.obj members) →
    s.type? name = some (.inputObject inputName fields) →
    ∀ key ∈ members.keys, ∃ f ∈ fields, f.name = key

/-- Whatever integer is read as an id is a signed 32-bit one. -/
def IdsInRange (s : Schema) (type : FieldType) (v : Json) : Prop :=
  ∀ i, s.Reads type v .id (.int i) → (Json.int i).isInt32 = true

variable {s : Schema}

theorem Reads.trans {type type' type'' : FieldType} {v v' v'' : Json}
    (h : s.Reads type v type' v') (h' : s.Reads type' v' type'' v'') :
    s.Reads type v type'' v'' := by
  induction h with
  | self => exact h'
  | nonNull _ ih => exact .nonNull (ih h')
  | item hv _ ih => exact .item hv (ih h')
  | single hn hv _ ih => exact .single hn hv (ih h')
  | field ht hf hv _ ih => exact .field ht hf hv (ih h')

theorem OnlyDeclared.of_reads {type type' : FieldType} {v v' : Json} (h : s.OnlyDeclared type v)
    (hr : s.Reads type v type' v') : s.OnlyDeclared type' v' :=
  fun name inputName fields members hreads => h name inputName fields members (hr.trans hreads)

theorem IdsInRange.of_reads {type type' : FieldType} {v v' : Json} (h : s.IdsInRange type v)
    (hr : s.Reads type v type' v') : s.IdsInRange type' v' :=
  fun i hreads => h i (hr.trans hreads)

/-! ## Items and members -/

theorem acceptsItems_iff {type : FieldType} {items : List Json} :
    s.acceptsItems type items = true ↔ ∀ v ∈ items, s.acceptsValue type v = true := by
  induction items with
  | nil => simp [acceptsItems]
  | cons v rest ih => rw [acceptsItems, Bool.and_eq_true, ih, List.forall_mem_cons]

/-- The fields that are there are admitted, and the required ones are there. -/
theorem acceptsMembers_iff {members : Json.Object} {fields : List ArgumentDefinition} :
    s.acceptsMembers members fields = true ↔ ∀ f ∈ fields,
      (∀ v, members.get? f.name = some v → s.acceptsValue f.type v = true) ∧
        (f.isRequired = true → f.name ∈ members.keys) := by
  induction fields with
  | nil => simp [acceptsMembers]
  | cons f rest ih =>
    rw [acceptsMembers, Bool.and_eq_true, ih, List.forall_mem_cons, Entries.mem_keys_iff,
      Entries.contains]
    refine and_congr_left fun _ => ?_
    split
    · rename_i v hv
      simp [hv]
    · rename_i hnone
      simp [hnone]

/-! ## What is admitted, type by type -/

theorem acceptsValue_nonNull {inner : FieldType} {v : Json} :
    s.acceptsValue (.nonNull inner) v = true ↔ v ≠ .null ∧ s.acceptsValue inner v = true := by
  rw [acceptsValue, Bool.and_eq_true, Bool.not_eq_true', ← Bool.not_eq_true, Json.isNull_iff]

theorem acceptsValue_list {item : FieldType} {items : List Json} :
    s.acceptsValue (.list item) (.arr items) = true ↔
      ∀ v ∈ items, s.acceptsValue item v = true := by
  rw [acceptsValue, acceptsItems_iff]

theorem acceptsValue_single {item : FieldType} {v : Json} (hn : v ≠ .null)
    (hv : ∀ items, v ≠ .arr items) :
    s.acceptsValue (.list item) v = s.acceptsValue item v := by
  cases v with
  | null => exact absurd rfl hn
  | arr items => exact absurd rfl (hv items)
  | _ => rw [acceptsValue] <;> simp

theorem acceptsValue_inputObject {name inputName : String} {fields : List ArgumentDefinition}
    (ht : s.type? name = some (.inputObject inputName fields)) {members : Json.Object} :
    s.acceptsValue (.named name) (.obj members) = s.acceptsMembers members fields := by
  simp [acceptsValue, ht]

theorem acceptsValue_of_reads {type type' : FieldType} {v v' : Json}
    (hr : s.Reads type v type' v') (h : s.acceptsValue type v = true) :
    s.acceptsValue type' v' = true := by
  induction hr with
  | self => exact h
  | nonNull _ ih => exact ih (acceptsValue_nonNull.mp h).2
  | item hv _ ih => exact ih (acceptsValue_list.mp h _ hv)
  | single hn hv _ ih => exact ih (acceptsValue_single hn hv ▸ h)
  | field ht hf hv _ ih =>
    rw [acceptsValue_inputObject ht] at h
    exact ih ((acceptsMembers_iff.mp h _ hf).1 _ hv)

theorem IdsInRange.of_acceptsValue {type : FieldType} {v : Json}
    (h : s.acceptsValue type v = true) : s.IdsInRange type v := by
  intro i hr
  simpa [acceptsValue, Json.str?] using acceptsValue_of_reads hr h

/-! ## What coerces -/

theorem Coerces.of_reads {type type' : FieldType} {v v' : Json} (hr : s.Reads type v type' v')
    (h : s.Coerces type v) : s.Coerces type' v' := by
  induction hr with
  | self => exact h
  | nonNull _ ih =>
    cases h with
    | null h => cases h
    | nonNull _ h => exact ih h
  | item hv _ ih =>
    cases h with
    | list h => exact ih (h _ hv)
    | single _ hsingle => exact absurd rfl (hsingle _)
  | single hn hv _ ih =>
    cases h with
    | null => exact absurd rfl hn
    | list => exact absurd rfl (hv _)
    | single _ _ h => exact ih h
  | field ht hf hv _ ih =>
    cases h with
    | scalar ht' => simp [ht] at ht'
    | inputObject ht' _ _ h =>
      rw [ht] at ht'
      cases ht'
      exact ih (h _ hf _ hv)

/-- Coercion looks for members that are no fields. -/
theorem Coerces.onlyDeclared {type : FieldType} {v : Json} (h : s.Coerces type v) :
    s.OnlyDeclared type v := by
  intro name inputName fields members hr ht
  cases h.of_reads hr with
  | scalar ht' => simp [ht] at ht'
  | inputObject ht' hdeclared =>
    rw [ht] at ht'
    cases ht'
    exact hdeclared

theorem Coerces.of_acceptsBuiltin {type : FieldType} (hb : type.isBuiltinScalar = true) {v : Json}
    (hn : v ≠ .null) (h : s.acceptsValue type v = true) : s.Coerces type v := by
  cases type with
  | string =>
    cases v with
    | str x => exact .string x
    | _ => simp_all [acceptsValue, Json.str?]
  | int =>
    cases v with
    | int i => exact .int (by simpa [acceptsValue, Json.isInt32] using h)
    | _ => simp_all [acceptsValue, Json.isInt32]
  | float =>
    refine .float ?_
    cases v <;> simp_all [acceptsValue]
  | id =>
    cases v with
    | str x => exact .idString x
    | int i => exact .idInt i
    | _ => simp_all [acceptsValue, Json.str?, Json.isInt32]
  | boolean =>
    cases v with
    | bool b => exact .boolean b
    | _ => simp_all [acceptsValue, Json.bool?]
  | _ => cases hb

/-- A value of a named type coerces if the smaller ones do that are read for it. -/
theorem Coerces.of_acceptsNamed {name : String} {v : Json} (hn : v ≠ .null)
    (h : s.acceptsValue (.named name) v = true) (hd : s.OnlyDeclared (.named name) v)
    (ih : ∀ {type part}, sizeOf part < sizeOf v → s.acceptsValue type part = true →
      s.OnlyDeclared type part → s.Coerces type part) : s.Coerces (.named name) v := by
  cases ht : s.type? name with
  | none => simp [acceptsValue, ht] at h
  | some definition =>
    cases definition with
    | scalar => exact .scalar ht v
    | enum _ values =>
      cases v with
      | str word => exact .enum ht (by simpa [acceptsValue, ht] using h)
      | _ => simp_all [acceptsValue]
    | inputObject _ fields =>
      cases v with
      | obj members =>
        rw [acceptsValue_inputObject ht] at h
        have hfields := acceptsMembers_iff.mp h
        refine .inputObject ht (hd _ _ _ _ (.self _ _) ht) (fun f hf => (hfields f hf).2)
          fun f hf part hpart => ?_
        have hsize : sizeOf part < sizeOf (Json.obj members) := by
          have := Json.sizeOf_get?_lt hpart
          simp only [Json.obj.sizeOf_spec]
          omega
        exact ih hsize ((hfields f hf).1 part hpart) (hd.of_reads (.field ht hf hpart (.self _ _)))
      | _ => simp_all [acceptsValue]
    | _ => simp_all [acceptsValue]

/-- What is admitted coerces if it has declared members only. -/
theorem Coerces.of_acceptsValue {type : FieldType} {v : Json} (h : s.acceptsValue type v = true)
    (hd : s.OnlyDeclared type v) : s.Coerces type v := by
  by_cases hn : v = .null
  · subst hn
    cases type with
    | nonNull => exact absurd rfl (acceptsValue_nonNull.mp h).1
    | _ => exact .null rfl
  match type with
  | .nonNull inner =>
    have hinner := (acceptsValue_nonNull.mp h).2
    exact .nonNull hn (.of_acceptsValue hinner (hd.of_reads (.nonNull (.self _ _))))
  | .list item =>
    by_cases harr : ∃ items, v = .arr items
    · obtain ⟨items, rfl⟩ := harr
      have hitems := acceptsValue_list.mp h
      exact .list fun v hv =>
        have := List.sizeOf_lt_of_mem hv
        .of_acceptsValue (hitems v hv) (hd.of_reads (.item hv (.self _ _)))
    · have hv : ∀ items, v ≠ .arr items := fun items heq => harr ⟨items, heq⟩
      rw [acceptsValue_single hn hv] at h
      exact .single hn hv (.of_acceptsValue h (hd.of_reads (.single hn hv (.self _ _))))
  | .named name => exact .of_acceptsNamed hn h hd fun _ => .of_acceptsValue
  | .string | .int | .float | .id | .boolean => exact .of_acceptsBuiltin rfl hn h
termination_by (sizeOf v, sizeOf type)

/-- What coerces is admitted if its integers for ids are in the range. -/
theorem Coerces.acceptsValue {type : FieldType} {v : Json} (h : s.Coerces type v)
    (hi : s.IdsInRange type v) : s.acceptsValue type v = true := by
  induction h with
  | @null type hn => cases type <;> simp_all [Schema.acceptsValue, FieldType.isNonNull]
  | nonNull hv _ ih => exact acceptsValue_nonNull.mpr ⟨hv, ih (hi.of_reads (.nonNull (.self _ _)))⟩
  | string | boolean => simp [Schema.acceptsValue, Json.str?, Json.bool?]
  | int hrange => simpa [Schema.acceptsValue, Json.isInt32] using hrange
  | @float v hnumber => cases v <;> simp_all [Schema.acceptsValue, Json.isNumber]
  | idString => simp [Schema.acceptsValue, Json.str?]
  | idInt i => simpa [Schema.acceptsValue] using Or.inr (hi i (.self _ _))
  | list _ ih =>
    exact acceptsValue_list.mpr fun v hv => ih v hv (hi.of_reads (.item hv (.self _ _)))
  | single hn hv _ ih =>
    rw [acceptsValue_single hn hv]
    exact ih (hi.of_reads (.single hn hv (.self _ _)))
  | scalar ht v => cases v <;> simp [Schema.acceptsValue, ht]
  | enum ht hword => simpa [Schema.acceptsValue, ht] using hword
  | inputObject ht _ hrequired _ ih =>
    rw [acceptsValue_inputObject ht, acceptsMembers_iff]
    exact fun f hf => ⟨fun v hv => ih f hf v hv (hi.of_reads (.field ht hf hv (.self _ _))),
      hrequired f hf⟩

/-- What a type admits coerces to it exactly if it has declared members only, and what coerces to a
    type is admitted if its integers for ids are in the range. -/
theorem coerces_iff_onlyDeclared (s : Schema) (type : FieldType) (v : Json) :
    (s.acceptsValue type v = true → (s.Coerces type v ↔ s.OnlyDeclared type v)) ∧
      (s.Coerces type v → s.IdsInRange type v → s.acceptsValue type v = true) :=
  ⟨fun h => ⟨Coerces.onlyDeclared, Coerces.of_acceptsValue h⟩, Coerces.acceptsValue⟩

/-! ## A review with one member too many -/

def reviewFields : List ArgumentDefinition :=
  [⟨"stars", .nonNull .int, none⟩, ⟨"commentary", .string, none⟩]

def reviewType : FieldType := .nonNull (.named "ReviewInput")

/-- A query that takes a review. -/
def reviewSchema : Schema :=
  ⟨"Query", none,
    [("Query", .object ⟨"Query", [],
        [("rate", ⟨"rate", .string, [⟨"review", reviewType, none⟩]⟩)]⟩),
      ("ReviewInput", .inputObject "ReviewInput" reviewFields)]⟩

/-- Five stars and no commentary. -/
def fiveStars : Json := .obj [("stars", .int 5)]

/-- Five stars, and a rating that a review does not have. -/
def ratedReview : Json := .obj [("stars", .int 5), ("rating", .int 1)]

theorem review_type? :
    reviewSchema.type? "ReviewInput" = some (.inputObject "ReviewInput" reviewFields) := rfl

theorem coerces_iff_onlyDeclared_review :
    reviewSchema.Coerces reviewType fiveStars ∧ reviewSchema.IdsInRange reviewType fiveStars ∧
      reviewSchema.acceptsValue reviewType fiveStars = true ∧
        reviewSchema.OnlyDeclared reviewType fiveStars := by
  have hcoerces : reviewSchema.Coerces reviewType fiveStars := by
    refine .nonNull (by simp [fiveStars]) (.inputObject review_type? (by decide) (by decide) ?_)
    intro f hf v hv
    simp only [reviewFields, List.mem_cons, List.not_mem_nil, or_false] at hf
    rcases hf with rfl | rfl <;> simp [Entries.get?_cons] at hv
    subst hv
    exact .nonNull (by simp) (.int (by decide))
  have hids : reviewSchema.IdsInRange reviewType fiveStars := by
    refine IdsInRange.of_acceptsValue ?_
    simp [reviewType, fiveStars, acceptsValue, review_type?, reviewFields, acceptsMembers,
      Entries.get?_cons, ArgumentDefinition.isRequired, FieldType.isNonNull, Json.isNull,
      Json.isInt32]
  obtain ⟨hiff, hadmitted⟩ := coerces_iff_onlyDeclared reviewSchema reviewType fiveStars
  have haccepts := hadmitted hcoerces hids
  exact ⟨hcoerces, hids, haccepts, (hiff haccepts).mp hcoerces⟩

/-- A review with a rating is admitted, but the rating is no field of the input object. -/
theorem ratedReview_not_coerces :
    reviewSchema.acceptsValue reviewType ratedReview = true ∧
      ¬ reviewSchema.Coerces reviewType ratedReview := by
  refine ⟨?_, fun h => ?_⟩
  · simp [reviewType, ratedReview, acceptsValue, review_type?, reviewFields, acceptsMembers,
      Entries.get?_cons, ArgumentDefinition.isRequired, FieldType.isNonNull, Json.isNull,
      Json.isInt32]
  · have hdeclared := h.onlyDeclared _ _ _ _ (.nonNull (.self _ _)) review_type?
    obtain ⟨f, hf, hname⟩ := hdeclared "rating" (by decide)
    simp only [reviewFields, List.mem_cons, List.not_mem_nil, or_false] at hf
    rcases hf with rfl | rfl <;> simp at hname

end QueryShapes.Schema
