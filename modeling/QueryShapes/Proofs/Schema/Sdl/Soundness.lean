/-
  Schemas of definition texts are sound.

  A text is read, put together, checked and built, and the schema has the checked types
  under their names (`Holds`).  So what the checks demand of the types of a text is true
  of the schema: every name that it uses is defined and stands for a type of the right
  kind, types and fields stand under their own names, no part of a type comes twice, no
  input object needs a value of itself, and everything is spelled as the language wants
  it (`sound_of_ofSdl`).  What analysis and materialization ask of a schema is part of
  this, so none of it has to be assumed of a schema that was read from a text.

  The schema has every type of the text, with all that its definition says, and no others
  but the built-in scalars (`type?_of_ofSdl`).  A text that passes the checks has a schema
  unless it uses a type of introspection, which every text can name but no schema has
  (`exists_ofSdl_iff`).
-/
import QueryShapes.Proofs.Analysis.Overlap
import QueryShapes.Proofs.Analysis.Typing
import QueryShapes.Proofs.Materialization.Defects
import QueryShapes.Proofs.Schema.Sdl.Dependence
import QueryShapes.Proofs.Schema.Sdl.Validation
import QueryShapes.Schema.Sdl.Basic

namespace QueryShapes

/-- An input object has a field that cannot be without another input object. -/
def Schema.Needs (s : Schema) (name other : String) : Prop :=
  ∃ described fields, ∃ f : ArgumentDefinition,
    s.type? name = some (.inputObject described fields) ∧ f ∈ fields ∧
    f.type = .nonNull (.named other) ∧
    ∃ described' fields', s.type? other = some (.inputObject described' fields')

namespace Sdl

variable {definitions : List Definition} {system : TypeSystem} {s : Schema} {name : String}
  {item : TypeItem} {d : TypeDefinition} {text : String}

/-! ## The definitions that are built -/

theorem mem_definitions_iff : d ∈ system.definitions ↔
    ∃ t ∈ system.types.values, isGiven t.name = false ∧ d = t.toDefinition := by
  unfold TypeSystem.definitions
  simp only [List.mem_map, List.mem_filter, Bool.not_eq_true', and_assoc, @eq_comm _ d]

namespace Collected

theorem mem_values_iff (h : Collected system.types) : item ∈ system.types.values ↔
    system.types.get? item.name = some item := by
  constructor
  · intro hmem
    obtain ⟨⟨key, t⟩, he, rfl⟩ := List.mem_map.mp hmem
    have hfound := Entries.get?_of_mem h.nodup he
    rwa [h.name hfound]
  · intro hfound
    exact List.mem_map.mpr ⟨_, Entries.mem_of_get? hfound, rfl⟩

theorem pairwise_definitions (h : Collected system.types) :
    system.definitions.Pairwise fun d e => d.name ≠ e.name := by
  unfold TypeSystem.definitions
  rw [List.pairwise_map]
  apply List.Pairwise.filter
  have hnames : system.types.values.map (·.name) = system.types.keys := by
    unfold Entries.values Entries.keys
    rw [List.map_map]
    apply List.map_congr_left
    intro e he
    exact h.name (Entries.get?_of_mem h.nodup he)
  have hpairs := h.nodup
  rw [← hnames, List.Nodup, List.pairwise_map] at hpairs
  simpa only [name_toDefinition] using hpairs

/-- The builder keeps every type of the text. -/
theorem keeps (h : Collected system.types) (hfound : system.types.get? name = some item)
    (hfree : isGiven name = false) : system.toBuilder.Keeps item.toDefinition := by
  obtain rfl := h.name hfound
  have hmem : item.toDefinition ∈ system.definitions :=
    mem_definitions_iff.mpr ⟨item, h.mem_values_iff.mpr hfound, hfree, rfl⟩
  exact Schema.lastNamed?_of_mem h.pairwise_definitions hmem

end Collected

/-- The built-in scalars are given scalars. -/
theorem exists_given_of_builtin (h : name ∈ Schema.builtinScalars) :
    ∃ g ∈ givenTypes, g.name = name ∧ g.kind = .scalar := by
  revert name
  decide

theorem isValid_of_given : ∀ g ∈ givenTypes, Name.isValid g.name = true := by decide

theorem Assembled.scalar_of_builtin (h : Assembled definitions system)
    (hbuiltin : name ∈ Schema.builtinScalars) :
    ∃ t, system.types.get? name = some t ∧ t.kind = .scalar := by
  obtain ⟨g, hg, rfl, hscalar⟩ := exists_given_of_builtin hbuiltin
  exact ⟨_, h.given g hg, (g.kind_completed _).trans hscalar⟩

/-! ## The schema that is built -/

/-- A schema holds the types of a system under their names, all but those of introspection. -/
structure Holds (system : TypeSystem) (s : Schema) : Prop where
  nodup : s.types.keys.Nodup
  types : ∀ {name d}, s.type? name = some d → ∃ t, system.types.get? name = some t ∧
    d = t.toDefinition ∧ (isGiven name = true → name ∈ Schema.builtinScalars ∧ t.kind = .scalar)
  free : ∀ {name t}, system.types.get? name = some t → isGiven name = false →
    s.type? name = some t.toDefinition
  builtin : ∀ {name}, name ∈ Schema.builtinScalars → s.types.contains name = true

theorem holds_of_build (h : Assembled definitions system) (hb : system.toBuilder.build = .ok s) :
    Holds system s := by
  obtain ⟨-, -, hkept, hothers, hnodup⟩ := SchemaBuilder.builds_of_build hb
  refine ⟨hnodup, ?_, ?_, ?_⟩
  · intro name d hd
    rcases hothers name d hd with ⟨hkeeps, rfl⟩ | ⟨hbuiltin, rfl⟩
    · obtain ⟨t, ht, hfree, rfl⟩ := mem_definitions_iff.mp (Schema.mem_of_lastNamed? hkeeps)
      rw [name_toDefinition]
      refine ⟨t, h.collected.mem_values_iff.mp ht, rfl, fun hgiven => ?_⟩
      rw [hfree] at hgiven
      cases hgiven
    · obtain ⟨t, hfound, hkind⟩ := h.scalar_of_builtin hbuiltin
      refine ⟨t, hfound, ?_, fun _ => ⟨hbuiltin, hkind⟩⟩
      rw [toDefinition_of_scalar hkind, h.collected.name hfound]
  · intro name t hfound hfree
    have hkept := hkept t.toDefinition (h.collected.keeps hfound hfree)
    rwa [name_toDefinition, h.collected.name hfound] at hkept
  · intro name hbuiltin
    obtain ⟨types, hdefine, rfl, -⟩ := SchemaBuilder.build_eq_ok.mp hb
    exact (SchemaBuilder.contains_types hdefine).mpr (Or.inl hbuiltin)

/-- Definitions that were put together and checked, and the schema that was built. -/
structure Defines (definitions : List Definition) (system : TypeSystem) (s : Schema) : Prop where
  assembled : Assembled definitions system
  schema : schemaFits system = true
  types : ∀ t ∈ system.types.values, typeFits system t = true
  build : system.toBuilder.build = .ok s

theorem ofSdl_eq_ok : Schema.ofSdl text = .ok s ↔
    ∃ definitions system, definitions? text = some definitions ∧
      assemble definitions = .ok system ∧ validate system = .ok () ∧
      system.toBuilder.build = .ok s := by
  unfold Schema.ofSdl
  split
  next hnone =>
    refine iff_of_false (by simp) ?_
    intro ⟨_, _, hread, _⟩
    exact Option.some_ne_none _ (hread.symm.trans hnone)
  next definitions hsome =>
    constructor
    · intro h
      obtain ⟨system, hassemble, h⟩ := bind_eq_ok.mp h
      obtain ⟨_, hvalid, hbuild⟩ := bind_eq_ok.mp h
      exact ⟨definitions, system, hsome, hassemble, hvalid, hbuild⟩
    · intro ⟨definitions', system, hread, hassemble, hvalid, hbuild⟩
      obtain rfl : definitions = definitions' := Option.some.inj (hsome.symm.trans hread)
      exact bind_eq_ok.mpr ⟨system, hassemble, bind_eq_ok.mpr ⟨(), hvalid, hbuild⟩⟩

theorem defines_of_ofSdl (h : Schema.ofSdl text = .ok s) :
    ∃ definitions system, definitions? text = some definitions ∧ Defines definitions system s := by
  obtain ⟨definitions, system, hread, hassemble, hvalid, hbuild⟩ := ofSdl_eq_ok.mp h
  have hlegal := legal_of_definitions? hread
  obtain ⟨hschema, htypes⟩ := validate_eq_ok hvalid
  have hassembled := assembled_of_assemble hassemble hlegal
  exact ⟨definitions, system, hread, hassembled, hschema, htypes, hbuild⟩

namespace Defines

theorem holds (h : Defines definitions system s) : Holds system s :=
  holds_of_build h.assembled h.build

/-- A type of the schema is a type of the system that was checked. -/
theorem exists_item (h : Defines definitions system s) (hd : s.type? name = some d) :
    ∃ t, system.types.get? name = some t ∧ d = t.toDefinition ∧ partsFit system t = true ∧
      t.partsDiffer = true := by
  obtain ⟨t, hfound, rfl, -⟩ := h.holds.types hd
  have hmem : t ∈ system.types.values := List.mem_map.mpr ⟨_, Entries.mem_of_get? hfound, rfl⟩
  exact ⟨t, hfound, rfl, partsFit_of_typeFits (h.types t hmem), h.assembled.partsDiffer t hmem⟩

theorem type?_of_mem (h : Defines definitions system s) {e : String × TypeDefinition}
    (he : e ∈ s.types) : s.type? e.1 = some e.2 := Entries.get?_of_mem h.holds.nodup he

/-- A name that the schema uses stands for what it stands for in the system. -/
theorem type?_of_get? (h : Defines definitions system s) (hs : s.types.contains name = true)
    (hfound : system.types.get? name = some item) : s.type? name = some item.toDefinition := by
  obtain ⟨d, hd⟩ := Option.isSome_iff_exists.mp hs
  obtain ⟨t, hfound', rfl, -⟩ := h.holds.types hd
  obtain rfl : item = t := Option.some.inj (hfound.symm.trans hfound')
  exact hd

theorem contains_of_names (h : Defines definitions system s) (hd : s.type? name = some d)
    {other : String} (hnames : d.Names other) : s.types.contains other = true :=
  (SchemaBuilder.contains_of_build h.build).2 d
    (List.mem_map.mpr ⟨_, Entries.mem_of_get? hd, rfl⟩) other hnames

theorem exists_object_of_isOfKind (h : Defines definitions system s)
    (hs : s.types.contains name = true) (hkind : system.isOfKind .object name = true) :
    ∃ t, s.type? name = some (.object t) := by
  obtain ⟨item, hfound, hitem⟩ := isOfKind_iff.mp hkind
  have htype := h.type?_of_get? hs hfound
  rw [toDefinition_of_object hitem] at htype
  exact ⟨item.toObject, htype⟩

/-! ### Names -/

theorem keyedTypes (h : Defines definitions system s) : s.KeyedTypes where
  nodup := h.holds.nodup
  name := by
    intro e he
    obtain ⟨t, hfound, heq, -⟩ := h.exists_item (h.type?_of_mem he)
    rw [heq, name_toDefinition, h.assembled.collected.name hfound]

theorem keyedFields (h : Defines definitions system s) : s.KeyedFields := by
  intro e he t ht f hf
  obtain ⟨item, -, heq, hfits, -⟩ := h.exists_item (h.type?_of_mem he)
  rw [heq] at ht
  obtain ⟨rfl, -⟩ := exists_of_objectType? hfits ht
  obtain ⟨field, -, rfl⟩ := List.mem_map.mp hf
  rfl

theorem legal (h : Defines definitions system s) (hd : s.type? name = some d) :
    Name.isValid name = true ∧ d.Legal ∧ d.Unreserved := by
  obtain ⟨item, hfound, rfl, hscalar⟩ := h.holds.types hd
  by_cases hgiven : isGiven name = true
  · obtain ⟨g, hg, rfl⟩ := isGiven_iff.mp hgiven
    rw [toDefinition_of_scalar (hscalar hgiven).2]
    exact ⟨isValid_of_given g hg, trivial, trivial⟩
  · have hlegal := h.assembled.collected.legal hfound (Bool.eq_false_of_not_eq_true hgiven)
    obtain rfl := h.assembled.collected.name hfound
    exact ⟨hlegal.name, legal_toDefinition hlegal, unreserved_toDefinition hlegal⟩

/-! ### References -/

theorem exists_object_of_mutationType (h : Defines definitions system s)
    (hname : s.mutationType = some name) : ∃ t, s.type? name = some (.object t) := by
  have hs := (SchemaBuilder.contains_of_build h.build).1 name hname
  rw [(SchemaBuilder.builds_of_build h.build).mutationType] at hname
  exact h.exists_object_of_isOfKind hs (isOfKind_of_root? h.schema hname)

/-- Both ends of a link are types of the system, and the type keeps what the interface promises. -/
theorem exists_of_implements (h : Defines definitions system s) {next : String}
    (hlink : s.Implements name next) : ∃ item i : TypeItem, item.name = name ∧
      (s.type? name).bind TypeDefinition.objectType? = some item.toObject ∧
      s.type? next = some (.interface i.toObject) ∧ system.types.get? next = some i ∧
      implementsFits system item next = true ∧ item.partsDiffer = true ∧ i.partsDiffer = true := by
  obtain ⟨t, hobject, hnext⟩ := hlink
  have htype : ∃ d, s.type? name = some d ∧ d.objectType? = some t := by
    rcases hobject with hd | hd <;> exact ⟨_, hd, rfl⟩
  obtain ⟨d, hd, ht⟩ := htype
  have hs := h.contains_of_names hd (.implemented ht hnext)
  obtain ⟨item, hitem, rfl, hfits, hdiffer⟩ := h.exists_item hd
  obtain ⟨rfl, -, himplements⟩ := exists_of_objectType? hfits ht
  have hkeeps := himplements next hnext
  obtain ⟨i, hfound, hkind, -⟩ := implementsFits_iff.mp hkeeps
  have hinterface := h.type?_of_get? hs hfound
  rw [toDefinition_of_interface hkind] at hinterface
  have hdiffer' := h.assembled.partsDiffer i (List.mem_map.mpr ⟨_, Entries.mem_of_get? hfound, rfl⟩)
  exact ⟨item, i, h.assembled.collected.name hitem, Option.bind_eq_some_iff.mpr ⟨_, hd, ht⟩,
    hinterface, hfound, hkeeps, hdiffer, hdiffer'⟩

theorem implementsInterfaces (h : Defines definitions system s) : s.ImplementsInterfaces := by
  intro name next hlink
  obtain ⟨_, i, -, -, hinterface, -⟩ := h.exists_of_implements hlink
  exact ⟨i.toObject, hinterface⟩

theorem exists_object_of_hasMember (h : Defines definitions system s) {member : String}
    (hmember : s.HasMember name member) : ∃ t, s.type? member = some (.object t) := by
  obtain ⟨described, members, hd, hmem⟩ := hmember
  have hs := h.contains_of_names hd (.member hmem)
  obtain ⟨item, -, heq, hfits, -⟩ := h.exists_item hd
  exact h.exists_object_of_isOfKind hs (isOfKind_of_member hfits heq.symm hmem)

/-- What is checked of an input object. -/
theorem exists_input (h : Defines definitions system s) {described : String}
    {fields : List ArgumentDefinition} (hd : s.type? name = some (.inputObject described fields)) :
    ∃ item, system.types.get? name = some item ∧ item.kind = .input ∧
      fields = item.inputs.map InputValue.toArgument ∧ partsFit system item = true := by
  obtain ⟨item, hfound, heq, hfits, -⟩ := h.exists_item hd
  have hkind : item.kind = .input := by rw [← kindOf_toDefinition, ← heq, kindOf]
  unfold TypeItem.toDefinition at heq
  rw [hkind] at heq
  cases heq
  exact ⟨item, hfound, hkind, rfl, hfits⟩

theorem noInputFields (h : Defines definitions system s) : s.NoInputFields := by
  intro e he t ht f hf described fields htype
  obtain ⟨item, -, heq, hfits, -⟩ := h.exists_item (h.type?_of_mem he)
  rw [heq] at ht
  obtain ⟨output, hfound, hkind⟩ :=
    exists_get?_of_field hfits ht (List.mem_map.mpr ⟨f, hf, rfl⟩)
  obtain ⟨input, hfound', hinput, -⟩ := h.exists_input htype
  obtain rfl : output = input := Option.some.inj (hfound.symm.trans hfound')
  exact hkind hinput

theorem not_isComposite_of_isInput (h : Defines definitions system s)
    (hfound : system.types.get? name = some item) (hinput : item.isInput = true) :
    s.isComposite name = false := by
  unfold Schema.isComposite
  split
  next d hd =>
    obtain ⟨item', hfound', rfl, -⟩ := h.exists_item hd
    obtain rfl : item = item' := Option.some.inj (hfound.symm.trans hfound')
    unfold TypeItem.isInput at hinput
    unfold TypeItem.toDefinition
    cases hkind : item.kind with
    | scalar => rfl
    | enum => rfl
    | input => rfl
    | _ =>
      rw [hkind] at hinput
      cases hinput
  next => rfl

/-- No list of arguments or input fields has a name twice, and none of them takes a composite. -/
theorem inputs (h : Defines definitions system s) (hd : s.type? name = some d)
    {inputs : List ArgumentDefinition} (hi : inputs ∈ d.inputLists) :
    (inputs.map (·.name)).Nodup ∧ ∀ a ∈ inputs, s.isComposite a.type.innerName = false := by
  obtain ⟨item, -, rfl, hfits, -⟩ := h.exists_item hd
  constructor
  · obtain ⟨location, values, rfl, hvalues⟩ := exists_inputsFit hfits hi
    rw [List.map_map]
    exact (inputsFit_iff.mp hvalues).1
  · intro a ha
    obtain ⟨t, hfound, hinput⟩ := exists_get?_of_input hfits hi ha
    exact h.not_isComposite_of_isInput hfound hinput

/-- An input object that needs another is one that the checks know to need it. -/
theorem mem_neededInputs (h : Defines definitions system s) {other : String}
    (hneeds : s.Needs name other) : .type other ∈ system.neededInputs (.type name) := by
  obtain ⟨described, fields, f, hd, hf, htype, described', fields', hother⟩ := hneeds
  obtain ⟨item, hfound, -, rfl, -⟩ := h.exists_input hd
  obtain ⟨item', hfound', hkind', -⟩ := h.exists_input hother
  obtain ⟨v, hv, rfl⟩ := List.mem_map.mp hf
  unfold TypeSystem.neededInputs
  dsimp only
  rw [hfound]
  refine List.mem_filterMap.mpr ⟨v, hv, ?_⟩
  rw [show v.type = .nonNull (.named other) from htype]
  exact if_pos (isOfKind_iff.mpr ⟨item', hfound', hkind'⟩)

/-- No input object needs a value of itself. -/
theorem not_needs_self (h : Defines definitions system s) :
    ¬ Relation.TransGen s.Needs name name := by
  intro hcircle
  obtain ⟨next, ⟨described, fields, f, hd, -⟩, -⟩ := Relation.TransGen.head'_iff.mp hcircle
  obtain ⟨item, hfound, hkind, -, hfits⟩ := h.exists_input hd
  unfold partsFit at hfits
  rw [hkind, Bool.and_eq_true, h.assembled.collected.name hfound] at hfits
  exact not_transGen_of_isGrounded hfits.2
    (hcircle.lift Reference.type fun _ _ hneeds => h.mem_neededInputs hneeds)

end Defines

end Sdl

/-! ## Soundness -/

/-- What analysis and materialization can rely on. -/
structure Schema.Sound (s : Schema) : Prop where
  closed : ∀ e ∈ s.types, ∀ name, e.2.Names name → s.types.contains name = true
  queryRoot : ∃ t, s.type? s.queryType = some (.object t)
  mutationRoot : ∀ name, s.mutationType = some name → ∃ t, s.type? name = some (.object t)
  keyedTypes : s.KeyedTypes
  keyedFields : s.KeyedFields
  partsDiffer : ∀ e ∈ s.types, e.2.PartsDiffer
  interfaces : s.ImplementsInterfaces
  members : ∀ name member, s.HasMember name member → ∃ t, s.type? member = some (.object t)
  outputs : s.NoInputFields
  inputs : ∀ e ∈ s.types, ∀ inputs ∈ e.2.inputLists,
    (inputs.map (·.name)).Nodup ∧ ∀ a ∈ inputs, s.isComposite a.type.innerName = false
  inputsEnd : ∀ name, ¬ Relation.TransGen s.Needs name name
  legal : s.Legal
  unreserved : s.UnreservedEnums

namespace Sdl

open Schema

variable {definitions : List Definition} {system : TypeSystem} {s : Schema} {text : String}

theorem Defines.sound (h : Defines definitions system s) : s.Sound where
  closed := fun e he name hnames => h.contains_of_names (h.type?_of_mem he) hnames
  queryRoot := by
    obtain ⟨_, _, rfl, hcheck⟩ := SchemaBuilder.build_eq_ok.mp h.build
    exact (checkReferences_eq_ok.mp hcheck).1
  mutationRoot := fun name hname => h.exists_object_of_mutationType hname
  keyedTypes := h.keyedTypes
  keyedFields := h.keyedFields
  partsDiffer := by
    intro e he
    obtain ⟨item, -, heq, -, hdiffer⟩ := h.exists_item (h.type?_of_mem he)
    rw [heq]
    exact partsDiffer_toDefinition hdiffer
  interfaces := h.implementsInterfaces
  members := fun name member hmember => h.exists_object_of_hasMember hmember
  outputs := h.noInputFields
  inputs := fun e he inputs hi => h.inputs (h.type?_of_mem he) hi
  inputsEnd := fun _ => h.not_needs_self
  legal := by
    intro e he
    obtain ⟨hname, hlegal, -⟩ := h.legal (h.type?_of_mem he)
    exact ⟨hname, hlegal⟩
  unreserved := by
    intro e he
    exact (h.legal (h.type?_of_mem he)).2.2

/-- Whatever the text: if it has a schema, the schema is sound. -/
theorem sound_of_ofSdl (h : Schema.ofSdl text = .ok s) : s.Sound := by
  obtain ⟨_, _, -, hdefines⟩ := defines_of_ofSdl h
  exact hdefines.sound

/-- The schema of a text has the types that the text defines, each with what its definition says and
    behind that what its extensions add, and built-in scalars for the other names of those. -/
theorem type?_of_ofSdl (h : Schema.ofSdl text = .ok s) :
    ∃ definitions, definitions? text = some definitions ∧ ∀ name d, s.type? name = some d ↔
      (∃ item, .type item ∈ definitions ∧ item.name = name ∧
        d = (item.completed (typeExtensions definitions)).toDefinition) ∨
      name ∈ builtinScalars ∧ d = .scalar name := by
  obtain ⟨definitions, system, hread, hdefines⟩ := defines_of_ofSdl h
  have hassembled := hdefines.assembled
  refine ⟨definitions, hread, fun name d => ⟨?_, ?_⟩⟩
  · intro hd
    obtain ⟨t, hfound, rfl, hscalar⟩ := hdefines.holds.types hd
    by_cases hgiven : isGiven name = true
    · obtain ⟨hbuiltin, hkind⟩ := hscalar hgiven
      refine Or.inr ⟨hbuiltin, ?_⟩
      rw [toDefinition_of_scalar hkind, hassembled.collected.name hfound]
    · obtain ⟨item, hmem, rfl⟩ := hassembled.only (Option.isSome_iff_exists.mpr ⟨t, hfound⟩)
        (Bool.eq_false_of_not_eq_true hgiven)
      obtain rfl := Option.some.inj (hfound.symm.trans (hassembled.defined hmem))
      exact Or.inl ⟨item, hmem, rfl, rfl⟩
  · rintro (⟨item, hmem, rfl, rfl⟩ | ⟨hbuiltin, rfl⟩)
    · exact hdefines.holds.free (hassembled.defined hmem) (hassembled.new hmem)
    · obtain ⟨t, hfound, hkind⟩ := hassembled.scalar_of_builtin hbuiltin
      have htype := hdefines.type?_of_get? (hdefines.holds.builtin hbuiltin) hfound
      rwa [toDefinition_of_scalar hkind, hassembled.collected.name hfound] at htype

/-- An extension adds its field behind those of the type, also if it stands before it. -/
example : ((Schema.ofSdl "extend type Query { name: String } type Query { id: ID }").toOption.bind
    fun s => (s.types.get? "Query").bind TypeDefinition.objectType?).map (·.fields.keys) =
      some ["id", "name"] := by decide +kernel

/-! ## Texts without a schema -/

/-- A name of a type of introspection. -/
def Introspective (name : String) : Prop := isGiven name = true ∧ name ∉ builtinScalars

/-- The names that a schema has to know: those of its roots, and what its types name. -/
def TypeSystem.Uses (s : TypeSystem) (name : String) : Prop :=
  s.root? .query = some name ∨ s.root? .mutation = some name ∨
    ∃ d ∈ s.definitions, d.Names name

/-- A type that is used and is none of introspection is one that the builder has. -/
theorem Assembled.defines (h : Assembled definitions system) {name : String} {t : TypeItem}
    (hfound : system.types.get? name = some t) (hno : ¬ Introspective name) :
    system.toBuilder.Defines name := by
  by_cases hgiven : isGiven name = true
  · exact Or.inl (not_not.mp fun hbuiltin => hno ⟨hgiven, hbuiltin⟩)
  · have hfree := Bool.eq_false_of_not_eq_true hgiven
    refine Or.inr ⟨t.toDefinition, Schema.mem_of_lastNamed? (h.collected.keeps hfound hfree), ?_⟩
    rw [name_toDefinition, h.collected.name hfound]

theorem not_introspective_of_defines {name : String} (h : system.toBuilder.Defines name) :
    ¬ Introspective name := by
  intro ⟨hgiven, hbuiltin⟩
  rcases h with hmem | ⟨d, hd, rfl⟩
  · exact hbuiltin hmem
  · obtain ⟨t, -, hfree, rfl⟩ := mem_definitions_iff.mp hd
    rw [name_toDefinition, hfree] at hgiven
    cases hgiven

/-- The object type under the query root is one of the text. -/
theorem Assembled.keeps_root (h : Assembled definitions system) {name : String}
    (hkind : system.isOfKind .object name = true) (hno : ¬ Introspective name) :
    ∃ t, system.toBuilder.Keeps (.object t) ∧ t.name = name := by
  obtain ⟨item, hfound, hobject⟩ := isOfKind_iff.mp hkind
  have hfree : isGiven name = false := by
    rw [← Bool.not_eq_true]
    intro hgiven
    -- The only given types that are none of introspection are scalars.
    obtain ⟨t, hfound', hscalar⟩ := h.scalar_of_builtin
      (not_not.mp fun hbuiltin => hno ⟨hgiven, hbuiltin⟩)
    obtain rfl : item = t := Option.some.inj (hfound.symm.trans hfound')
    rw [hobject] at hscalar
    cases hscalar
  have hkeeps := h.collected.keeps hfound hfree
  rw [toDefinition_of_object hobject] at hkeeps
  exact ⟨item.toObject, hkeeps, h.collected.name hfound⟩

/-- A checked system is built exactly if it uses no type of introspection. -/
theorem exists_build_iff (h : Assembled definitions system) (hschema : schemaFits system = true)
    (htypes : ∀ t ∈ system.types.values, typeFits system t = true) :
    (∃ s, system.toBuilder.build = .ok s) ↔ ∀ name, system.Uses name → ¬ Introspective name := by
  have hkept : ∀ d ∈ system.definitions, system.toBuilder.Keeps d := fun d hd =>
    Schema.lastNamed?_of_mem h.collected.pairwise_definitions hd
  obtain ⟨root, hroot⟩ := exists_queryRoot hschema
  have hquery : system.toBuilder.queryType = root := by
    show (system.root? .query).getD "Query" = root
    rw [hroot, Option.getD_some]
  constructor
  · intro ⟨s, hbuild⟩ name huses
    apply not_introspective_of_defines
    have hbuildable := SchemaBuilder.buildable_of_build hbuild
    rcases huses with hname | hname | ⟨d, hd, hnames⟩
    · obtain ⟨t, hkeeps, ht⟩ := hbuildable.root
      obtain rfl : root = name := Option.some.inj (hroot.symm.trans hname)
      exact Or.inr ⟨_, Schema.mem_of_lastNamed? hkeeps, ht.trans hquery⟩
    · exact hbuildable.mutation name hname
    · exact hbuildable.closed d (hkept d hd) name hnames
  · intro hno
    apply SchemaBuilder.exists_build_of_buildable
    constructor
    case distinct =>
      exact h.collected.pairwise_definitions.imp fun hne heq => absurd heq hne
    case root =>
      rw [hquery]
      exact h.keeps_root (isOfKind_of_root? hschema hroot) (hno root (Or.inl hroot))
    case mutation =>
      intro name hname
      obtain ⟨t, hfound, -⟩ := isOfKind_iff.mp (isOfKind_of_root? hschema hname)
      exact h.defines hfound (hno name (Or.inr (Or.inl hname)))
    case closed =>
      intro d hkeeps name hnames
      have hd : d ∈ system.definitions := Schema.mem_of_lastNamed? hkeeps
      obtain ⟨item, hitem, -, rfl⟩ := mem_definitions_iff.mp hd
      obtain ⟨t, hfound⟩ := exists_get?_of_names (partsFit_of_typeFits (htypes item hitem)) hnames
      exact h.defines hfound (hno name (Or.inr (Or.inr ⟨_, hd, hnames⟩)))

/-- A text has a schema exactly if it can be read, put together and checked, and uses no type of
    introspection. -/
theorem exists_ofSdl_iff (text : String) : (∃ s, Schema.ofSdl text = .ok s) ↔
    ∃ definitions system, definitions? text = some definitions ∧
      assemble definitions = .ok system ∧ validate system = .ok () ∧
      ∀ name, system.Uses name → ¬ Introspective name := by
  have hbuild : ∀ definitions system, definitions? text = some definitions →
      assemble definitions = .ok system → validate system = .ok () →
      ((∃ s, system.toBuilder.build = .ok s) ↔
        ∀ name, system.Uses name → ¬ Introspective name) := by
    intro definitions system hread hassemble hvalid
    obtain ⟨hschema, htypes⟩ := validate_eq_ok hvalid
    exact exists_build_iff (assembled_of_assemble hassemble (legal_of_definitions? hread)) hschema
      htypes
  constructor
  · intro ⟨s, hs⟩
    obtain ⟨definitions, system, hread, hassemble, hvalid, hs⟩ := ofSdl_eq_ok.mp hs
    exact ⟨definitions, system, hread, hassemble, hvalid,
      (hbuild definitions system hread hassemble hvalid).mp ⟨s, hs⟩⟩
  · intro ⟨definitions, system, hread, hassemble, hvalid, hno⟩
    obtain ⟨s, hs⟩ := (hbuild definitions system hread hassemble hvalid).mpr hno
    exact ⟨s, ofSdl_eq_ok.mpr ⟨definitions, system, hread, hassemble, hvalid, hs⟩⟩

end Sdl

end QueryShapes
