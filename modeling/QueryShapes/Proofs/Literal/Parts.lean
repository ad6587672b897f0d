/-
  The parts of constants at every depth.

  A constant that is admitted on a schema of valid names has finite floats, and
  its enum values and object keys are names; one of its enum values is a reserved
  word only if it is given for a custom scalar, or inside such a part
  (`spelled_of_acceptsLiteral`).
-/
import QueryShapes.Proofs.Executable.Grammar
import QueryShapes.Proofs.Schema.Legality

namespace QueryShapes

open Executable (reserved)

/-- Names that an enum value may have. -/
def IsEnumValue (word : String) : Prop := Name.isValid word = true ∧ word ∉ reserved

/-- The constants that a constant is a part of, itself among them. -/
inductive Literal.PartOf (part : Literal) : Literal → Prop
  | self : PartOf part part
  | item {items : List Literal} {l : Literal} (hl : l ∈ items) (h : PartOf part l) :
      PartOf part (.list items)
  | entry {entries : Entries Literal} {e : String × Literal} (he : e ∈ entries)
      (h : PartOf part e.2) : PartOf part (.object entries)

def TypeDefinition.Unreserved : TypeDefinition → Prop
  | .enum _ values => ∀ value ∈ values, value ∉ reserved
  | _ => True

instance : DecidablePred TypeDefinition.Unreserved
  | .enum _ values => inferInstanceAs (Decidable (∀ value ∈ values, value ∉ reserved))
  | .object _ | .interface _ | .union _ _ | .inputObject _ _ | .scalar _ =>
    inferInstanceAs (Decidable True)

namespace Schema

variable {s : Schema}

/-- No enum of the schema has a reserved word for a value. -/
def UnreservedEnums (s : Schema) : Prop := ∀ e ∈ s.types, e.2.Unreserved

instance (s : Schema) : Decidable s.UnreservedEnums :=
  inferInstanceAs (Decidable (∀ e ∈ s.types, e.2.Unreserved))

/-! ## What can be written has parts that can be written -/

theorem wellFormed_of_partOf {part l : Literal} (hp : part.PartOf l) (h : wellFormed l = true) :
    wellFormed part = true := by
  induction hp with
  | self => exact h
  | item hl _ ih =>
    rw [wellFormed] at h
    exact ih (Literal.wellFormed_of_mem_items h _ hl)
  | entry he _ ih =>
    rw [wellFormed] at h
    exact ih (Literal.wellFormed_of_mem_entries h _ he)

/-! ## Reserved words -/

/-- An enum value that a constant has in a part given for a custom scalar. -/
def GivesScalar (s : Schema) (type : FieldType) (l : Literal) (word : String) : Prop :=
  ∃ name scalarName part, s.type? name = some (.scalar scalarName) ∧
    s.Gives type l (.named name) part ∧ (Literal.enum word).PartOf part

theorem GivesScalar.of_gives {type type' : FieldType} {l l' : Literal} {word : String}
    (h : s.Gives type l type' l') (hg : s.GivesScalar type' l' word) :
    s.GivesScalar type l word := by
  obtain ⟨name, scalarName, part, ht, hgives, hpart⟩ := hg
  exact ⟨name, scalarName, part, ht, h.trans hgives, hpart⟩

theorem ForScalar.givesScalar {type : FieldType} {l : Literal} {word : String}
    (h : s.ForScalar type l) (hp : (Literal.enum word).PartOf l) : s.GivesScalar type l word := by
  obtain ⟨name, scalarName, ht, hgives⟩ := h
  exact ⟨name, scalarName, l, ht, hgives, hp⟩

/-- An enum value of an admitted constant is no reserved word, or given for a custom scalar. -/
theorem unreserved_or_givesScalar (hu : s.UnreservedEnums) {word : String} {l : Literal}
    (hp : (Literal.enum word).PartOf l) (hl : l.DistinctKeys) {type : FieldType}
    (h : s.acceptsLiteral type l = true) : word ∉ reserved ∨ s.GivesScalar type l word := by
  induction hp generalizing type with
  | self =>
    rcases acceptsLiteral_enum h with ⟨hscalar, -⟩ | ⟨_, _, values, ht, hmem⟩
    · exact Or.inr (hscalar.givesScalar .self)
    · have hvalues : ∀ value ∈ values, value ∉ reserved := hu _ (Entries.mem_of_get? ht)
      exact Or.inl (hvalues word hmem)
  | item hmem hpart ih =>
    cases hl with
    | list hitems =>
      rcases acceptsLiteral_list h with ⟨hscalar, -⟩ | ⟨item, hgives, haccepts⟩
      · exact Or.inr (hscalar.givesScalar (.item hmem hpart))
      · have hitem := hgives.trans (.item hmem (.self _ _))
        exact (ih (hitems _ hmem) (haccepts _ hmem)).imp_right (.of_gives hitem)
  | @entry entries e hmem hpart ih =>
    cases hl with
    | object hkeys hentries =>
      rcases acceptsLiteral_object hkeys h with ⟨hscalar, -⟩ | ⟨_, _, _, ht, hgives, haccepts⟩
      · exact Or.inr (hscalar.givesScalar (.entry hmem hpart))
      · obtain ⟨f, hf, hname, hentry⟩ := haccepts _ hmem
        have hnamed : (f.name, e.2) ∈ entries := by
          rw [hname]
          exact hmem
        have hfield := hgives.trans (.field ht hf hnamed (.self _ _))
        exact (ih (hentries _ hmem) hentry).imp_right (.of_gives hfield)

/-! ## Admitted constants -/

/-- Constants of a type whose floats are finite, whose object keys and enum values are names, and
    which give reserved words for custom scalars only. -/
structure Spelled (s : Schema) (type : FieldType) (l : Literal) : Prop where
  floats : ∀ x, (Literal.float x).PartOf l → x.isFinite = true
  keys : ∀ entries, (Literal.object entries).PartOf l →
    ∀ e ∈ entries, Name.isValid e.1 = true
  enums : ∀ word, (Literal.enum word).PartOf l →
    IsEnumValue word ∨ Name.isValid word = true ∧ s.GivesScalar type l word

/-- What an argument admits is spelled as the language wants it, reserved words that are given for
    custom scalars apart. -/
theorem spelled_of_acceptsLiteral (hs : s.WellNamed) (hu : s.UnreservedEnums) {l : Literal}
    (hl : l.DistinctKeys) {type : FieldType} (h : s.acceptsLiteral type l = true) :
    s.Spelled type l := by
  have hwell := wellFormed_of_acceptsLiteral hs hl h
  refine ⟨fun x hp => ?_, fun entries hp => ?_, fun word hp => ?_⟩
  · have hfloat := wellFormed_of_partOf hp hwell
    rwa [wellFormed] at hfloat
  · have hobject := wellFormed_of_partOf hp hwell
    rw [wellFormed] at hobject
    exact isValid_of_mem_entries hobject
  · have henum := wellFormed_of_partOf hp hwell
    rw [wellFormed] at henum
    exact (unreserved_or_givesScalar hu hp hl h).imp (fun hr => ⟨henum, hr⟩) fun hg => ⟨henum, hg⟩

end Schema

end QueryShapes
