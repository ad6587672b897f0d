/-
  Interfaces of definition texts.

  A checked type lists the interfaces of the interfaces that it lists, and never itself.
  So the links of a schema that was read from a text are those of a strict order, and
  chains of links lead nowhere that a single link does not: a type is below another
  exactly if it lists it or is a member of it (`isSubtype_iff_of_ofSdl`).  A type also has
  every field of its interfaces, with a type as narrow as the promised one, with the same
  arguments, and with no others that are required (`exists_field_of_ofSdl`).
-/
import QueryShapes.Proofs.Schema.Sdl.Soundness

namespace QueryShapes

/-! ## Promises -/

/-- A type that is no list and may be null. -/
def FieldType.IsPlain : FieldType → Prop
  | .list _ | .nonNull _ => False
  | .named _ | .string | .int | .float | .id | .boolean => True

theorem FieldType.isPlain_of_ne {type : FieldType} (hnull : ∀ inner, type ≠ .nonNull inner)
    (hlist : ∀ item, type ≠ .list item) : type.IsPlain := by
  cases type with
  | nonNull inner => exact absurd rfl (hnull inner)
  | list item => exact absurd rfl (hlist item)
  | _ => trivial

/-- A type every value of which is one of a promised type. -/
inductive Schema.Narrows (s : Schema) : FieldType → FieldType → Prop
  | plain {type promised : FieldType} (ht : type.IsPlain) (hp : promised.IsPlain)
      (h : type.innerName = promised.innerName ∨
        s.isSubtype promised.innerName type.innerName = true) : Narrows s type promised
  | list {item promised : FieldType} (h : Narrows s item promised) :
      Narrows s (.list item) (.list promised)
  | required {type promised : FieldType} (h : Narrows s type promised) :
      Narrows s (.nonNull type) (.nonNull promised)
  | excludesNull {type promised : FieldType} (h : Narrows s type promised) :
      Narrows s (.nonNull type) promised

/-- A field that can stand where another is promised. -/
structure Schema.KeepsPromise (s : Schema) (field promised : FieldDefinition) : Prop where
  type : s.Narrows field.type promised.type
  arguments : ∀ p ∈ promised.arguments, ∃ a ∈ field.arguments, a.name = p.name ∧ a.type = p.type
  required : ∀ a ∈ field.arguments, a.isRequired = true → ∃ p ∈ promised.arguments, p.name = a.name

namespace Sdl

open Schema

variable {definitions : List Definition} {system : TypeSystem} {s : Schema} {item : TypeItem}
  {name next text : String}

theorem isRequired_toArgument (v : InputValue) : v.toArgument.isRequired = v.isRequired := by
  unfold ArgumentDefinition.isRequired InputValue.isRequired InputValue.toArgument
  rw [Option.isSome_map]

theorem fieldKeeps_iff {field promised : FieldItem} : fieldKeeps system field promised = true ↔
    covers system field.type promised.type = true ∧
      (∀ p ∈ promised.arguments, ∃ a ∈ field.arguments, a.name = p.name ∧ a.type = p.type) ∧
      ∀ a ∈ field.arguments, a.isRequired = true → ∃ p ∈ promised.arguments, p.name = a.name := by
  unfold fieldKeeps
  simp only [Bool.and_eq_true, List.all_eq_true, List.any_eq_true, beq_iff_eq, Bool.or_eq_true,
    Bool.not_eq_true', and_assoc, Decidable.or_iff_not_imp_left, Bool.not_eq_false]

/-- The fields of a type that is found. -/
theorem field?_iff (ht : (s.type? name).bind TypeDefinition.objectType? = some item.toObject)
    (hdiffer : item.partsDiffer = true) {fieldName : String} {d : FieldDefinition} :
    s.field? name fieldName = some d ↔
      ∃ field ∈ item.fields, field.name = fieldName ∧ field.toField = d := by
  have hget : s.field? name fieldName = item.toObject.fields.get? fieldName := by
    unfold Schema.field?
    obtain ⟨type, htype, ht⟩ := Option.bind_eq_some_iff.mp ht
    rw [htype]
    show type.objectType?.bind (·.fields.get? fieldName) = _
    rw [ht]
    rfl
  have hn : item.toObject.fields.keys.Nodup := by
    rw [keys_toObject]
    exact (partsDiffer_iff.mp hdiffer).2.1
  rw [hget, Entries.get?_eq_some_iff hn]
  unfold TypeItem.toObject
  simp only [List.mem_map, Prod.mk.injEq]

namespace Defines

/-! ## Links -/

theorem implements_trans (h : Defines definitions system s) {last : String}
    (hfirst : s.Implements name next) (hsecond : s.Implements next last) :
    s.Implements name last := by
  obtain ⟨item, i, -, hitem, hinterface, hfound, hfits, -⟩ := h.exists_of_implements hfirst
  obtain ⟨i', hfound', -, -, himplements, -⟩ := implementsFits_iff.mp hfits
  obtain rfl : i = i' := Option.some.inj (hfound.symm.trans hfound')
  have hi : (s.type? next).bind TypeDefinition.objectType? = some i.toObject :=
    Option.bind_eq_some_iff.mpr ⟨_, hinterface, rfl⟩
  rw [implements_iff_of_objectType? hi] at hsecond
  exact (implements_iff_of_objectType? hitem).mpr (himplements last hsecond)

theorem not_implements_self (h : Defines definitions system s) : ¬ s.Implements name name := by
  intro hlink
  obtain ⟨item, i, hname, -, -, -, hfits, -⟩ := h.exists_of_implements hlink
  obtain ⟨-, -, -, hne, -⟩ := implementsFits_iff.mp hfits
  exact hne hname.symm

/-- A type that the system has below another is below it in the schema. -/
theorem isSubtype_of_isSubtype (h : Defines definitions system s) {sub super : String}
    (hsub : s.types.contains sub = true) (hsuper : s.types.contains super = true)
    (hbelow : system.isSubtype sub super = true) :
    sub = super ∨ s.isSubtype super sub = true := by
  unfold TypeSystem.isSubtype at hbelow
  rw [Bool.or_eq_true, Bool.or_eq_true, beq_iff_eq] at hbelow
  rcases hbelow with (heq | hmember) | hlink
  · exact Or.inl heq
  · right
    split at hmember
    next t hfound =>
      have hmem := List.contains_iff_mem.mp hmember
      have hkind : t.kind = .union := by
        by_contra hno
        rw [(h.assembled.collected.shaped hfound).members hno] at hmem
        cases hmem
      have hd := h.type?_of_get? hsuper hfound
      rw [toDefinition_of_union hkind] at hd
      exact isSubtype_iff.mpr (Or.inr ⟨sub, Relation.ReflTransGen.refl, _, _, hd, hmem⟩)
    next => cases hmember
  · right
    split at hlink
    next t hfound =>
      have hmem := List.contains_iff_mem.mp hlink
      have hkind : t.kind = .object ∨ t.kind = .interface := by
        by_contra hno
        obtain ⟨hobject, hinterface⟩ := not_or.mp hno
        rw [(h.assembled.collected.shaped hfound).implements hobject hinterface] at hmem
        cases hmem
      have ht : (s.type? sub).bind TypeDefinition.objectType? = some t.toObject := by
        rw [h.type?_of_get? hsub hfound]
        exact objectType?_toDefinition hkind
      have himplements : s.Implements sub super := (implements_iff_of_objectType? ht).mpr hmem
      exact isSubtype_iff.mpr (Or.inl (Relation.TransGen.single himplements))
    next => cases hlink

/-! ## Fields -/

theorem narrows_of_covers (h : Defines definitions system s) {type promised : FieldType}
    (hcovers : covers system type promised = true)
    (htype : s.types.contains type.innerName = true)
    (hpromised : s.types.contains promised.innerName = true) : s.Narrows type promised := by
  fun_induction covers system type promised with
  | case1 type promised ih => exact .required (ih hcovers htype hpromised)
  | case2 type promised _ ih => exact .excludesNull (ih hcovers htype hpromised)
  | case3 => cases hcovers
  | case4 item promised ih => exact .list (ih hcovers htype hpromised)
  | case5 => cases hcovers
  | case6 => cases hcovers
  | case7 type promised _ hreq hnull _ hlist hno =>
    refine .plain ?_ ?_ (h.isSubtype_of_isSubtype htype hpromised hcovers)
    · exact FieldType.isPlain_of_ne hreq hlist
    · exact FieldType.isPlain_of_ne hnull hno

theorem contains_of_field? (h : Defines definitions system s) {fieldName : String}
    {d : FieldDefinition} (hd : s.field? name fieldName = some d) :
    s.types.contains d.type.innerName = true := by
  unfold Schema.field? at hd
  obtain ⟨type, htype, hd⟩ := Option.bind_eq_some_iff.mp hd
  obtain ⟨t, ht, hd⟩ := Option.bind_eq_some_iff.mp hd
  exact h.contains_of_names htype
    (.field ht (List.mem_map.mpr ⟨_, Entries.mem_of_get? hd, rfl⟩))

/-- A type has the fields that its interface promises. -/
theorem exists_field (h : Defines definitions system s) (hlink : s.Implements name next)
    {fieldName : String} {promised : FieldDefinition}
    (hd : s.field? next fieldName = some promised) :
    ∃ field, s.field? name fieldName = some field ∧ s.KeepsPromise field promised := by
  obtain ⟨item, i, -, hitem, hinterface, hfound, hfits, hdiffer, hdiffer'⟩ :=
    h.exists_of_implements hlink
  obtain ⟨i', hfound', -, -, -, hkeeps⟩ := implementsFits_iff.mp hfits
  obtain rfl : i = i' := Option.some.inj (hfound.symm.trans hfound')
  have hi : (s.type? next).bind TypeDefinition.objectType? = some i.toObject :=
    Option.bind_eq_some_iff.mpr ⟨_, hinterface, rfl⟩
  have hpromised := h.contains_of_field? hd
  obtain ⟨p, hp, rfl, rfl⟩ := (field?_iff hi hdiffer').mp hd
  obtain ⟨field, hfield, hkeeps⟩ := hkeeps p hp
  have hname := List.find?_some hfield
  have hd' : s.field? name p.name = some field.toField :=
    (field?_iff hitem hdiffer).mpr
      ⟨field, List.mem_of_find?_eq_some hfield, eq_of_beq hname, rfl⟩
  obtain ⟨hcovers, harguments, hrequired⟩ := fieldKeeps_iff.mp hkeeps
  have hnarrows := h.narrows_of_covers hcovers (h.contains_of_field? hd') hpromised
  refine ⟨field.toField, hd', hnarrows, ?_, ?_⟩
  · refine List.forall_mem_map.mpr fun v hv => ?_
    obtain ⟨a, ha, heq⟩ := harguments v hv
    exact ⟨a.toArgument, List.mem_map_of_mem ha, heq⟩
  · refine List.forall_mem_map.mpr fun v hv hneeded => ?_
    rw [isRequired_toArgument] at hneeded
    obtain ⟨a, ha, heq⟩ := hrequired v hv hneeded
    exact ⟨a.toArgument, List.mem_map_of_mem ha, heq⟩

end Defines

/-! ## Schemas of texts -/

/-- Whatever the text: below an interface stand the types that list it, and below a union its
    members. -/
theorem isSubtype_iff_of_ofSdl (h : Schema.ofSdl text = .ok s) (abstractType name : String) :
    s.isSubtype abstractType name = true ↔
      s.Implements name abstractType ∨ s.HasMember abstractType name := by
  obtain ⟨_, _, -, hdefines⟩ := defines_of_ofSdl h
  have htrans : IsTrans String s.Implements := ⟨fun _ _ _ => hdefines.implements_trans⟩
  rw [isSubtype_iff, Relation.transGen_eq_self]
  refine or_congr_right ⟨?_, ?_⟩
  · intro ⟨member, hchain, hmember⟩
    rcases Relation.reflTransGen_iff_eq_or_transGen.mp hchain with rfl | hchain
    · exact hmember
    · -- Members are object types, and nothing implements those.
      rw [Relation.transGen_eq_self] at hchain
      obtain ⟨t, hinterface⟩ := hdefines.implementsInterfaces name member hchain
      obtain ⟨t', hobject⟩ := hdefines.exists_object_of_hasMember hmember
      rw [hinterface] at hobject
      cases hobject
  · intro hmember
    exact ⟨name, Relation.ReflTransGen.refl, hmember⟩

/-- Links form no circle. -/
theorem not_implements_self_of_ofSdl (h : Schema.ofSdl text = .ok s) (name : String) :
    ¬ Relation.TransGen s.Implements name name := by
  obtain ⟨_, _, -, hdefines⟩ := defines_of_ofSdl h
  have htrans : IsTrans String s.Implements := ⟨fun _ _ _ => hdefines.implements_trans⟩
  rw [Relation.transGen_eq_self]
  exact hdefines.not_implements_self

/-- Whatever the text: a type has the fields of its interfaces, each as the interface promises
    it. -/
theorem exists_field_of_ofSdl (h : Schema.ofSdl text = .ok s) {name interface fieldName : String}
    {promised : FieldDefinition} (hlink : s.Implements name interface)
    (hd : s.field? interface fieldName = some promised) :
    ∃ field, s.field? name fieldName = some field ∧ s.KeepsPromise field promised := by
  obtain ⟨_, _, -, hdefines⟩ := defines_of_ofSdl h
  exact hdefines.exists_field hlink hd

end Sdl

end QueryShapes
