/-
  Constants supplied as variable values.

  What a type admits as a constant it admits as the constant's JSON form, in every
  respect but one: a constant for an id may be any 64-bit integer, a value for an id
  has to be a signed 32-bit one.  Exactly if the integers that are read as ids are in
  that range, the JSON form is admitted with the constant
  (`acceptsValue_toJson_iff`).
-/
import QueryShapes.Proofs.Schema.Coercion
import QueryShapes.Proofs.Schema.VariableValues

namespace QueryShapes

/-! ## The JSON form of items and entries -/

theorem Literal.itemsToJson_eq_map (items : List Literal) :
    itemsToJson items = items.map toJson := by
  induction items with
  | nil => rfl
  | cons l rest ih => rw [itemsToJson, ih, List.map_cons]

theorem Literal.entriesToJson_eq_map (entries : Entries Literal) :
    entriesToJson entries = entries.map fun e => (e.1, e.2.toJson) := by
  induction entries with
  | nil => rfl
  | cons e rest ih => rw [entriesToJson, ih, List.map_cons]

theorem Literal.get?_entriesToJson (entries : Entries Literal) (key : String) :
    Entries.get? (entriesToJson entries) key = (entries.get? key).map toJson := by
  rw [entriesToJson_eq_map, Entries.get?_map]

theorem Literal.keys_entriesToJson (entries : Entries Literal) :
    Entries.keys (entriesToJson entries) = entries.keys := by
  rw [entriesToJson_eq_map, Entries.keys, Entries.keys, List.map_map]
  rfl

theorem Literal.toJson_ne_arr {l : Literal} (hl : ∀ items, l ≠ .list items) (items : List Json) :
    l.toJson ≠ .arr items := by
  cases l with
  | list => exact absurd rfl (hl _)
  | float x =>
    rw [toJson, Json.ofDouble]
    split <;> simp
  | _ => simp [toJson]

namespace Schema

variable {s : Schema}

/-- A float that is admitted is finite, so its JSON form is no null either. -/
theorem toJson_ne_null {type : FieldType} {l : Literal} (hn : l ≠ .null)
    (h : s.acceptsLiteral type l = true) : l.toJson ≠ .null := by
  cases l with
  | null => exact absurd rfl hn
  | float x => simp [Literal.toJson, Json.ofDouble, isFinite_of_acceptsLiteral h]
  | _ => simp [Literal.toJson]

/-! ## From constants to values -/

theorem acceptsValue_toJson_builtin {type : FieldType} (hb : type.isBuiltinScalar = true)
    {l : Literal} (hn : l ≠ .null) (h : s.acceptsLiteral type l = true)
    (hi : s.IdsInRange type l.toJson) : s.acceptsValue type l.toJson = true := by
  cases type with
  | id =>
    cases l with
    | int i => simpa [acceptsValue, Literal.toJson] using Or.inr (hi _ (.self _ _))
    | _ => simp_all [acceptsValue, acceptsLiteral, Literal.toJson, Json.str?]
  | int =>
    cases l with
    | int i => simpa [acceptsValue, acceptsLiteral, Literal.toJson, isInt32, Json.isInt32] using h
    | _ => simp_all [acceptsLiteral]
  | float =>
    cases l with
    | int i => simp [acceptsValue, Literal.toJson, Json.isNumber]
    | float x =>
      have hx := isFinite_of_acceptsLiteral h
      simp [acceptsValue, Literal.toJson, Json.ofDouble, hx, Json.isNumber]
    | _ => simp_all [acceptsLiteral]
  | string | boolean =>
    cases l <;> simp_all [acceptsValue, acceptsLiteral, Literal.toJson, Json.str?, Json.bool?]
  | _ => cases hb

/-- A constant of a named type is admitted as a value if the smaller ones are. -/
theorem acceptsValue_toJson_named {name : String} {l : Literal} (hn : l ≠ .null)
    (h : s.acceptsLiteral (.named name) l = true) (hi : s.IdsInRange (.named name) l.toJson)
    (ih : ∀ {type part}, sizeOf part < sizeOf l → s.acceptsLiteral type part = true →
      s.IdsInRange type part.toJson → s.acceptsValue type part.toJson = true) :
    s.acceptsValue (.named name) l.toJson = true := by
  have hjson := toJson_ne_null hn h
  cases ht : s.type? name with
  | none => simp [acceptsLiteral, ht] at h
  | some definition =>
    cases definition with
    | scalar => rw [acceptsValue] <;> simp_all
    | enum _ values => cases l <;> simp_all [acceptsLiteral, acceptsValue, Literal.toJson]
    | inputObject _ fields =>
      cases l with
      | object entries =>
        simp only [acceptsLiteral, ht, Bool.and_eq_true] at h
        rw [Literal.toJson, acceptsValue_inputObject ht, acceptsMembers_iff]
        intro f hf
        obtain ⟨hentry, hrequired⟩ := acceptsEntries_iff.mp h.2 f hf
        rw [Literal.keys_entriesToJson, Literal.get?_entriesToJson]
        refine ⟨fun v hv => ?_, hrequired⟩
        obtain ⟨part, hpart, rfl⟩ := Option.map_eq_some_iff.mp hv
        have hsize : sizeOf part < sizeOf (Literal.object entries) := by
          have := Literal.sizeOf_get?_lt hpart
          simp only [Literal.object.sizeOf_spec]
          omega
        have hread : s.Reads (.named name) (Literal.toJson (.object entries)) f.type part.toJson :=
          .field ht hf (by rw [Literal.get?_entriesToJson, hpart]; rfl) (.self _ _)
        exact ih hsize (hentry part hpart) (hi.of_reads hread)
      | _ => simp_all [acceptsLiteral]
    | _ => simp_all [acceptsLiteral]

theorem acceptsValue_toJson {type : FieldType} {l : Literal} (h : s.acceptsLiteral type l = true)
    (hi : s.IdsInRange type l.toJson) : s.acceptsValue type l.toJson = true := by
  by_cases hn : l = .null
  · subst hn
    cases type with
    | nonNull => exact absurd rfl (acceptsLiteral_nonNull.mp h).1
    | _ => simp [Literal.toJson, acceptsValue]
  have hjson := toJson_ne_null hn h
  cases htype : type with
  | nonNull inner =>
    subst htype
    have hinner := (acceptsLiteral_nonNull.mp h).2
    have hread : s.Reads (.nonNull inner) l.toJson inner l.toJson := .nonNull (.self _ _)
    exact acceptsValue_nonNull.mpr ⟨hjson, acceptsValue_toJson hinner (hi.of_reads hread)⟩
  | list item =>
    subst htype
    by_cases hlist : ∃ items, l = .list items
    · obtain ⟨items, rfl⟩ := hlist
      rw [acceptsLiteral, acceptsLiterals_iff] at h
      rw [Literal.toJson, Literal.itemsToJson_eq_map] at hi ⊢
      refine acceptsValue_list.mpr (List.forall_mem_map.mpr fun l hl => ?_)
      have := List.sizeOf_lt_of_mem hl
      have hread := Reads.item (s := s) (List.mem_map_of_mem hl) (.self item l.toJson)
      exact acceptsValue_toJson (h l hl) (hi.of_reads hread)
    · have hl : ∀ items, l ≠ .list items := fun items heq => hlist ⟨items, heq⟩
      have hv := Literal.toJson_ne_arr hl
      rw [acceptsLiteral_single hn hl] at h
      rw [acceptsValue_single hjson hv]
      exact acceptsValue_toJson h (hi.of_reads (.single hjson hv (.self _ _)))
  | named name =>
    subst htype
    exact acceptsValue_toJson_named hn h hi fun _ => acceptsValue_toJson
  | _ =>
    subst htype
    exact acceptsValue_toJson_builtin rfl hn h hi
termination_by (sizeOf l, sizeOf type)

/-- An admitted constant is admitted as a variable value too, exactly if the integers in it that
    are read as ids are signed 32-bit ones. -/
theorem acceptsValue_toJson_iff (s : Schema) {type : FieldType} {l : Literal}
    (h : s.acceptsLiteral type l = true) :
    s.acceptsValue type l.toJson = true ↔ s.IdsInRange type l.toJson :=
  ⟨IdsInRange.of_acceptsValue, acceptsValue_toJson h⟩

/-! ## Short and long ids -/

def nodeFilter : List ArgumentDefinition :=
  [⟨"ids", .nonNull (.list .id), none⟩, ⟨"first", .int, some (.int 10)⟩]

/-- A query for nodes by their ids. -/
def nodeSchema : Schema :=
  ⟨"Query", none,
    [("Query", .object ⟨"Query", [],
        [("nodes", ⟨"nodes", .list .string, [⟨"filter", .named "NodeFilter", none⟩]⟩),
          ("node", ⟨"node", .string, [⟨"id", .nonNull .id, none⟩]⟩)]⟩),
      ("NodeFilter", .inputObject "NodeFilter" nodeFilter)]⟩

theorem nodeFilter_type? :
    nodeSchema.type? "NodeFilter" = some (.inputObject "NodeFilter" nodeFilter) := rfl

/-- A single id in the range, for a list of ids. -/
def shortId : Literal := .object [("ids", .int 300000000)]

theorem acceptsValue_toJson_iff_filter :
    nodeSchema.acceptsLiteral (.named "NodeFilter") shortId = true ∧
      nodeSchema.acceptsValue (.named "NodeFilter") shortId.toJson = true ∧
        nodeSchema.IdsInRange (.named "NodeFilter") shortId.toJson := by
  have hliteral : nodeSchema.acceptsLiteral (.named "NodeFilter") shortId = true := by
    simp [shortId, acceptsLiteral, nodeFilter_type?, nodeFilter, acceptsEntries,
      Entries.get?_cons, ArgumentDefinition.isRequired]
  have hvalue : nodeSchema.acceptsValue (.named "NodeFilter") shortId.toJson = true := by
    simp [shortId, Literal.toJson, Literal.entriesToJson, acceptsValue, nodeFilter_type?,
      nodeFilter, acceptsMembers, Entries.get?_cons, ArgumentDefinition.isRequired,
      FieldType.isNonNull, Json.isNull, Json.isInt32]
  exact ⟨hliteral, hvalue, (acceptsValue_toJson_iff nodeSchema hliteral).mp hvalue⟩

/-- An id above the range may be written into a document, but not supplied for a variable. -/
theorem longId_not_acceptsValue :
    nodeSchema.acceptsLiteral (.nonNull .id) (.int 3000000000) = true ∧
      nodeSchema.acceptsValue (.nonNull .id) (Literal.toJson (.int 3000000000)) = false := by
  constructor
  · simp [acceptsLiteral]
  · simp [Literal.toJson, acceptsValue, Json.isNull, Json.str?, Json.isInt32]

end Schema

end QueryShapes
