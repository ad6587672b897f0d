/-
  What the checks of a text say of its types.

  A system of types that passes all checks has object types for roots, and every type
  in it has parts that fit (`validate_eq_ok`).  Here this is read as statements about
  the definition that the schema will have of a type: what it names is a type of the
  system (`exists_get?_of_names`), of the kind that its place asks for; no part of it
  comes twice, and if the text is legal, so is the definition.
-/
import QueryShapes.Proofs.Schema.Building
import QueryShapes.Proofs.Schema.Sdl.Assembly
import QueryShapes.Schema.Sdl.Validation

namespace QueryShapes

/-- The lists of arguments and input fields in a definition. -/
def TypeDefinition.inputLists : TypeDefinition → List (List ArgumentDefinition)
  | .object t | .interface t => t.fields.values.map (·.arguments)
  | .inputObject _ fields => [fields]
  | .union _ _ | .enum _ _ | .scalar _ => []

theorem TypeDefinition.inputLists_of_objectType? {d : TypeDefinition} {t : ObjectType}
    (ht : d.objectType? = some t) : d.inputLists = t.fields.values.map (·.arguments) := by
  cases d <;> cases ht <;> rfl

/-- No part of a definition comes twice. -/
def TypeDefinition.PartsDiffer : TypeDefinition → Prop
  | .object t | .interface t => t.implements.Nodup ∧ t.fields.keys.Nodup
  | .union _ members => members.Nodup
  | .enum _ values => values.Nodup
  | .inputObject _ fields => (fields.map (·.name)).Nodup
  | .scalar _ => True

namespace Sdl

variable {system : TypeSystem} {kind : TypeKind} {type : FieldType} {item : TypeItem}
  {name : String}

/-! ## Look-ups -/

theorem isOfKind_iff : system.isOfKind kind name = true ↔
    ∃ t, system.types.get? name = some t ∧ t.kind = kind := by
  unfold TypeSystem.isOfKind
  cases system.types.get? name <;> simp

theorem isInput_iff : system.isInput type = true ↔
    ∃ t, system.types.get? type.innerName = some t ∧ t.isInput = true := by
  unfold TypeSystem.isInput TypeSystem.inner?
  cases system.types.get? type.innerName <;> simp

theorem isOutput_iff : system.isOutput type = true ↔
    ∃ t, system.types.get? type.innerName = some t ∧ t.kind ≠ .input := by
  unfold TypeSystem.isOutput TypeSystem.inner?
  cases system.types.get? type.innerName <;> simp

/-- What is asked of a type that implements an interface. -/
theorem implementsFits_iff : implementsFits system item name = true ↔
    ∃ i, system.types.get? name = some i ∧ i.kind = .interface ∧ name ≠ item.name ∧
      (∀ next ∈ i.implements, next ∈ item.implements) ∧
      ∀ promised ∈ i.fields, ∃ field, item.fields.find? (·.name == promised.name) = some field ∧
        fieldKeeps system field promised = true := by
  unfold implementsFits
  cases system.types.get? name with
  | none => simp
  | some i =>
    simp only [Bool.and_eq_true, beq_iff_eq, bne_iff_ne, List.all_eq_true, List.contains_iff_mem,
      and_assoc, Option.some.injEq, exists_eq_left']
    refine and_congr_right fun _ => and_congr_right fun _ => and_congr_right fun _ =>
      forall₂_congr fun promised _ => ?_
    cases item.fields.find? (·.name == promised.name) <;> simp

/-! ## Checks -/

/-- A system that passes the checks. -/
theorem validate_eq_ok (h : validate system = .ok ()) :
    schemaFits system = true ∧ ∀ t ∈ system.types.values, typeFits system t = true := by
  unfold validate at h
  dsimp only at h
  by_cases hschema : schemaFits system = true
  · rw [hschema, Bool.not_true, if_neg Bool.false_ne_true] at h
    split at h
    · cases h
    split at h
    · cases h
    next hnone => exact ⟨hschema, all_of_find? hnone⟩
  · rw [Bool.not_eq_true] at hschema
    rw [hschema, Bool.not_false, if_pos rfl] at h
    cases h

/-- What stands on a given scalar is not looked at, and a scalar has no parts. -/
theorem partsFit_of_typeFits (h : typeFits system item = true) : partsFit system item = true := by
  unfold typeFits at h
  split at h
  next hgiven =>
    rw [Bool.and_eq_true, beq_iff_eq] at hgiven
    unfold partsFit
    rw [hgiven.2]
  next =>
    rw [Bool.and_eq_true] at h
    exact h.2

theorem fieldsFit_iff {fields : List FieldItem} : fieldsFit system fields = true ↔
    fields ≠ [] ∧ ∀ f ∈ fields, isFree f.name = true ∧ system.isOutput f.type = true ∧
      inputsFit system "ARGUMENT_DEFINITION" f.arguments = true ∧
      directivesFit system "FIELD_DEFINITION" f.directives = true := by
  unfold fieldsFit
  simp only [Bool.and_eq_true, List.all_eq_true, Bool.not_eq_true', List.isEmpty_eq_false_iff,
    and_assoc]

theorem inputsFit_iff {location : String} {inputs : List InputValue} :
    inputsFit system location inputs = true ↔ (inputs.map (·.name)).Nodup ∧
      ∀ v ∈ inputs, isFree v.name = true ∧ system.isInput v.type = true ∧
        directivesFit system location v.directives = true := by
  unfold inputsFit
  simp only [Bool.and_eq_true, List.all_eq_true, allDifferent_iff, and_assoc]

theorem exists_queryRoot (h : schemaFits system = true) :
    ∃ root, system.root? .query = some root := by
  unfold schemaFits at h
  simp only [Bool.and_eq_true] at h
  obtain ⟨⟨⟨hroot, -⟩, -⟩, -⟩ := h
  exact Option.isSome_iff_exists.mp hroot

/-- The roots of a checked system are object types. -/
theorem isOfKind_of_root? (h : schemaFits system = true) {root : RootKind}
    (hroot : system.root? root = some name) : system.isOfKind .object name = true := by
  unfold schemaFits at h
  simp only [Bool.and_eq_true, List.all_eq_true] at h
  obtain ⟨⟨-, hobjects⟩, -⟩ := h
  obtain ⟨before, after, hsplit, -⟩ := List.lookup_eq_some_iff.mp hroot
  have hmem : (root, name) ∈ system.schema.roots := by
    rw [hsplit]
    exact List.mem_append_right before List.mem_cons_self
  exact hobjects _ hmem

/-! ## Definitions of the schema -/

theorem name_toDefinition (item : TypeItem) : item.toDefinition.name = item.name := by
  unfold TypeItem.toDefinition
  cases item.kind <;> rfl

theorem toDefinition_of_scalar (h : item.kind = .scalar) :
    item.toDefinition = .scalar item.name := by
  unfold TypeItem.toDefinition
  rw [h]

theorem toDefinition_of_object (h : item.kind = .object) :
    item.toDefinition = .object item.toObject := by
  unfold TypeItem.toDefinition
  rw [h]

theorem toDefinition_of_interface (h : item.kind = .interface) :
    item.toDefinition = .interface item.toObject := by
  unfold TypeItem.toDefinition
  rw [h]

theorem toDefinition_of_union (h : item.kind = .union) :
    item.toDefinition = .union item.name item.members := by
  unfold TypeItem.toDefinition
  rw [h]

theorem objectType?_toDefinition (h : item.kind = .object ∨ item.kind = .interface) :
    item.toDefinition.objectType? = some item.toObject := by
  rcases h with h | h
  · rw [toDefinition_of_object h]
    rfl
  · rw [toDefinition_of_interface h]
    rfl

/-- The kind of a type of a schema. -/
def kindOf : TypeDefinition → TypeKind
  | .object _ => .object
  | .interface _ => .interface
  | .union _ _ => .union
  | .enum _ _ => .enum
  | .inputObject _ _ => .input
  | .scalar _ => .scalar

theorem kindOf_toDefinition (item : TypeItem) : kindOf item.toDefinition = item.kind := by
  unfold TypeItem.toDefinition
  cases item.kind <;> rfl

/-- An object type or interface of a checked system. -/
theorem exists_of_objectType? {t : ObjectType} (hfits : partsFit system item = true)
    (ht : item.toDefinition.objectType? = some t) : t = item.toObject ∧
      fieldsFit system item.fields = true ∧
      ∀ i ∈ item.implements, implementsFits system item i = true := by
  unfold TypeItem.toDefinition at ht
  unfold partsFit at hfits
  cases hkind : item.kind with
  | object =>
    rw [hkind] at ht hfits
    cases ht
    rw [Bool.and_eq_true, List.all_eq_true] at hfits
    exact ⟨rfl, hfits⟩
  | interface =>
    rw [hkind] at ht hfits
    cases ht
    rw [Bool.and_eq_true, List.all_eq_true] at hfits
    exact ⟨rfl, hfits⟩
  | _ =>
    rw [hkind] at ht
    cases ht

/-- The members of a union of a checked system. -/
theorem isOfKind_of_member {described : String} {members : List String}
    (hfits : partsFit system item = true) (hd : item.toDefinition = .union described members)
    (hmem : name ∈ members) : system.isOfKind .object name = true := by
  have hkind : item.kind = .union := by rw [← kindOf_toDefinition, hd, kindOf]
  unfold TypeItem.toDefinition at hd
  unfold partsFit at hfits
  rw [hkind] at hd hfits
  cases hd
  rw [Bool.and_eq_true, List.all_eq_true] at hfits
  exact hfits.2 name hmem

theorem exists_field_of_mem {f : FieldDefinition} (hf : f ∈ item.toObject.fields.values) :
    ∃ field ∈ item.fields, f = field.toField := by
  obtain ⟨e, he, rfl⟩ := List.mem_map.mp hf
  obtain ⟨field, hfield, rfl⟩ := List.mem_map.mp he
  exact ⟨field, hfield, rfl⟩

/-- The type of a field of a checked system is no input object. -/
theorem exists_get?_of_field {t : ObjectType} (hfits : partsFit system item = true)
    (ht : item.toDefinition.objectType? = some t) {f : FieldDefinition}
    (hf : f ∈ t.fields.values) :
    ∃ o, system.types.get? f.type.innerName = some o ∧ o.kind ≠ .input := by
  obtain ⟨rfl, hfields, -⟩ := exists_of_objectType? hfits ht
  obtain ⟨field, hfield, rfl⟩ := exists_field_of_mem hf
  obtain ⟨-, houtput, -⟩ := (fieldsFit_iff.mp hfields).2 field hfield
  exact isOutput_iff.mp houtput

/-- The arguments of fields and the input fields of a checked system. -/
theorem exists_inputsFit (hfits : partsFit system item = true)
    {inputs : List ArgumentDefinition} (hi : inputs ∈ item.toDefinition.inputLists) :
    ∃ location, ∃ values : List InputValue, inputs = values.map InputValue.toArgument ∧
      inputsFit system location values = true := by
  cases ht : item.toDefinition.objectType? with
  | some t =>
    obtain ⟨rfl, hfields, -⟩ := exists_of_objectType? hfits ht
    rw [TypeDefinition.inputLists_of_objectType? ht] at hi
    obtain ⟨f, hf, rfl⟩ := List.mem_map.mp hi
    obtain ⟨field, hfield, rfl⟩ := exists_field_of_mem hf
    obtain ⟨-, -, harguments, -⟩ := (fieldsFit_iff.mp hfields).2 field hfield
    exact ⟨_, field.arguments, rfl, harguments⟩
  | none =>
    unfold TypeItem.toDefinition at hi ht
    unfold partsFit at hfits
    cases hkind : item.kind with
    | input =>
      rw [hkind] at hi hfits
      simp only [Bool.and_eq_true] at hfits
      exact ⟨_, item.inputs, List.mem_singleton.mp hi, hfits.1.2⟩
    | object =>
      rw [hkind] at ht
      cases ht
    | interface =>
      rw [hkind] at ht
      cases ht
    | _ =>
      rw [hkind] at hi
      cases hi

theorem exists_get?_of_input (hfits : partsFit system item = true)
    {inputs : List ArgumentDefinition} (hi : inputs ∈ item.toDefinition.inputLists)
    {a : ArgumentDefinition} (ha : a ∈ inputs) :
    ∃ t, system.types.get? a.type.innerName = some t ∧ t.isInput = true := by
  obtain ⟨location, values, rfl, hvalues⟩ := exists_inputsFit hfits hi
  obtain ⟨v, hv, rfl⟩ := List.mem_map.mp ha
  obtain ⟨-, hinput, -⟩ := (inputsFit_iff.mp hvalues).2 v hv
  exact isInput_iff.mp hinput

/-- What a type of a checked system names is a type of the system. -/
theorem exists_get?_of_names (hfits : partsFit system item = true)
    (h : item.toDefinition.Names name) : ∃ t, system.types.get? name = some t := by
  generalize hd : item.toDefinition = d at h
  have hinput : ∀ inputs ∈ d.inputLists, ∀ a ∈ inputs,
      ∃ t, system.types.get? a.type.innerName = some t := by
    intro inputs hi a ha
    rw [← hd] at hi
    obtain ⟨t, hfound, -⟩ := exists_get?_of_input hfits hi ha
    exact ⟨t, hfound⟩
  cases h with
  | implemented ht hmem =>
    rw [← hd] at ht
    obtain ⟨rfl, -, himplements⟩ := exists_of_objectType? hfits ht
    obtain ⟨i, hfound, -⟩ := implementsFits_iff.mp (himplements name hmem)
    exact ⟨i, hfound⟩
  | field ht hf =>
    rw [← hd] at ht
    obtain ⟨o, hfound, -⟩ := exists_get?_of_field hfits ht hf
    exact ⟨o, hfound⟩
  | argument ht hf ha =>
    refine hinput _ ?_ _ ha
    rw [TypeDefinition.inputLists_of_objectType? ht]
    exact List.mem_map.mpr ⟨_, hf, rfl⟩
  | member hmem =>
    obtain ⟨t, hfound, -⟩ := isOfKind_iff.mp (isOfKind_of_member hfits hd hmem)
    exact ⟨t, hfound⟩
  | inputField hf => exact hinput _ List.mem_cons_self _ hf

theorem eraseDups_of_nodup {names : List String} (h : names.Nodup) : names.eraseDups = names := by
  induction names with
  | nil => rfl
  | cons first rest ih =>
    obtain ⟨hfirst, hrest⟩ := List.nodup_cons.mp h
    have hkeep : rest.filter (fun name => !name == first) = rest := by
      rw [List.filter_eq_self]
      intro name hname
      rw [Bool.not_eq_true', beq_eq_false_iff_ne]
      exact ne_of_mem_of_not_mem hname hfirst
    rw [List.eraseDups_cons, hkeep, ih hrest]

theorem partsDiffer_iff : item.partsDiffer = true ↔ item.implements.Nodup ∧
    (item.fields.map (·.name)).Nodup ∧ item.members.Nodup ∧ (item.values.map (·.name)).Nodup ∧
      (item.inputs.map (·.name)).Nodup := by
  unfold TypeItem.partsDiffer
  simp only [Bool.and_eq_true, allDifferent_iff, and_assoc]

theorem keys_toObject (item : TypeItem) : item.toObject.fields.keys = item.fields.map (·.name) := by
  unfold TypeItem.toObject Entries.keys
  rw [List.map_map]
  rfl

theorem partsDiffer_toDefinition (h : item.partsDiffer = true) :
    item.toDefinition.PartsDiffer := by
  obtain ⟨himplements, hfields, hmembers, hvalues, hinputs⟩ := partsDiffer_iff.mp h
  have hobject : item.toObject.implements.Nodup ∧ item.toObject.fields.keys.Nodup :=
    ⟨himplements, keys_toObject item ▸ hfields⟩
  unfold TypeItem.toDefinition
  cases item.kind with
  | scalar => trivial
  | object => exact hobject
  | interface => exact hobject
  | union => exact hmembers
  | enum =>
    show ((item.values.map (·.name)).eraseDups).Nodup
    rwa [eraseDups_of_nodup hvalues]
  | input =>
    show ((item.inputs.map InputValue.toArgument).map (·.name)).Nodup
    rwa [List.map_map]

theorem legal_toDefinition (h : item.Legal) : item.toDefinition.Legal := by
  have hinput : ∀ v : InputValue, v.Legal → v.toArgument.Legal := fun v hv => ⟨hv.name, hv.type⟩
  have hobject : ∀ e ∈ item.toObject.fields, e.2.Legal := by
    intro e he
    obtain ⟨f, hf, rfl⟩ := List.mem_map.mp he
    have hlegal := h.fields f hf
    exact ⟨hlegal.name, hlegal.type, List.forall_mem_map.mpr fun v hv =>
      hinput v (hlegal.arguments v hv)⟩
  unfold TypeItem.toDefinition
  cases item.kind with
  | scalar => trivial
  | object => exact hobject
  | interface => exact hobject
  | union => trivial
  | enum =>
    intro value hvalue
    obtain ⟨v, hv, rfl⟩ := List.mem_map.mp (List.mem_eraseDups.mp hvalue)
    exact (h.values v hv).1
  | input => exact List.forall_mem_map.mpr fun v hv => hinput v (h.inputs v hv)

theorem unreserved_toDefinition (h : item.Legal) : item.toDefinition.Unreserved := by
  unfold TypeItem.toDefinition
  cases item.kind with
  | enum =>
    intro value hvalue
    obtain ⟨v, hv, rfl⟩ := List.mem_map.mp (List.mem_eraseDups.mp hvalue)
    exact (h.values v hv).2
  | _ => trivial

end Sdl

end QueryShapes
