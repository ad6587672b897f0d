/-
  Response shapes of merged fields.

  Two fields that are merged under one response key fill one place of the
  response, so a server wants their types to have one shape: the same wrappers
  around one leaf type, or around two composite types (`Schema.sameShape`).
  Analysis compares their names and arguments and leaves it at that.  What follows
  from it is that the two carry the types that their own parent types declare
  under one name; on one parent type these are the same, and on two parent types
  their shapes agree exactly where the schema makes them agree
  (`merged_response_shape`).  It need not: a cat and a dog may have sizes of
  different types (`pet_sizes_differ`).
-/
import QueryShapes.Proofs.Analysis.Lists
import QueryShapes.Proofs.Analysis.Merging

namespace QueryShapes

namespace Schema

/-! ## Shapes of types -/

/-- Whether values of two types have one shape: the same wrappers, and at the bottom the same type
    or two composite ones. -/
def sameShape (s : Schema) : FieldType → FieldType → Bool
  | .list t, .list u => s.sameShape t u
  | .nonNull t, .nonNull u => s.sameShape t u
  | .list _, _ | _, .list _ | .nonNull _, _ | _, .nonNull _ => false
  | t, u => t.innerName == u.innerName || s.isComposite t.innerName && s.isComposite u.innerName

/-- Values of one type have one shape. -/
theorem sameShape_refl (s : Schema) (t : FieldType) : s.sameShape t t = true := by
  induction t with
  | list t ih => exact ih
  | nonNull t ih => exact ih
  | named name => simp [sameShape]
  | string => rfl
  | int => rfl
  | float => rfl
  | id => rfl
  | boolean => rfl

/-- A type has a field of a name and a type: a declared one or the meta field. -/
def Declares (s : Schema) (parent name : String) (type : FieldType) : Prop :=
  (name = Name.typename ∧ type = .nonNull .string) ∨
    ∃ key d, s.field? parent key = some d ∧ d.name = name ∧ d.type = type ∧ key ≠ Name.typename

/-- The fields of a name on two types have one shape. -/
def AgreeOn (s : Schema) (a b name : String) : Prop :=
  ∀ t u, s.Declares a name t → s.Declares b name u → s.sameShape t u = true

/-- Where fields stand under their own names, a type has one field of a name. -/
theorem KeyedFields.type_eq {s : Schema} (h : s.KeyedFields) {parent name : String}
    {t u : FieldType} (ht : s.Declares parent name t) (hu : s.Declares parent name u) : t = u := by
  rcases ht with ⟨rfl, rfl⟩ | ⟨key, d, hd, hname, rfl, hmeta⟩
  · rcases hu with ⟨-, rfl⟩ | ⟨key', e, he, hname', -, hmeta'⟩
    · rfl
    · exact absurd ((h.name_eq he).symm.trans hname') hmeta'
  · rw [h.name_eq hd] at hname
    subst hname
    rcases hu with ⟨hname', -⟩ | ⟨key', e, he, hname', rfl, -⟩
    · exact absurd hname' hmeta
    · rw [h.name_eq he] at hname'
      rw [hname', hd] at he
      cases he
      rfl

end Schema

namespace Analysis

open Selection

/-! ## Merged fields -/

/-- An analyzed field is one that its parent type has. -/
theorem declares_of_analyze {schema : Schema} {shape : OperationShape} {limit : Nat}
    {set : SelectionSet} (h : analyze schema shape limit = .ok set) {f : Field}
    (hf : f ∈ allFields set.selections) : schema.Declares f.parentType f.name f.type := by
  obtain ⟨type, hfield | rfl⟩ := analyze_fields h hf
  · obtain ⟨request, -, hasSelection, isEmpty, hfield⟩ := hfield
    have hfield := Resolver.field_of_name hfield
    split at hfield
    · rw [Resolver.metaField_eq_ok hfield]
      exact Or.inl ⟨rfl, rfl⟩
    · rename_i hmeta
      obtain ⟨d, arguments, hd, -, -, -, rfl⟩ := Resolver.declaredField_eq_ok hfield
      exact Or.inr ⟨request.name, d, hd, rfl, rfl, hmeta⟩
  · exact Or.inl ⟨rfl, rfl⟩

/-- Any two fields that are merged under one key have one name, and each has the type that its
    parent type declares under it.  So they have one response shape if the schema gives the fields
    of this name on the two parent types one, and only then where fields stand under their own
    names; on one parent type the two have the same type. -/
theorem merged_response_shape {schema : Schema} {shape : OperationShape} {limit : Nat}
    {set : SelectionSet} (h : analyze schema shape limit = .ok set) {path : List String}
    {p q : CollectedField} (hp : p ∈ mergedAt (collectFields set.selections) path)
    (hq : q ∈ mergedAt (collectFields set.selections) path)
    (hkey : p.1.responseKey = q.1.responseKey) :
    p.1.name = q.1.name ∧ schema.Declares p.1.parentType p.1.name p.1.type ∧
      schema.Declares q.1.parentType p.1.name q.1.type ∧
      (schema.AgreeOn p.1.parentType q.1.parentType p.1.name →
        schema.sameShape p.1.type q.1.type = true) ∧
      (schema.KeyedFields →
        (schema.sameShape p.1.type q.1.type = true →
          schema.AgreeOn p.1.parentType q.1.parentType p.1.name) ∧
        (p.1.parentType = q.1.parentType → p.1.type = q.1.type)) := by
  obtain ⟨root, subs, -, -, -, -, hcheck⟩ := analyze_eq_ok h
  have hname := checkMerging_name_eq hcheck hp hq hkey
  have hdp := declares_of_analyze h (mem_allFields_of_mem_mergedAt hp)
  have hdq := declares_of_analyze h (mem_allFields_of_mem_mergedAt hq)
  rw [← hname] at hdq
  refine ⟨hname, hdp, hdq, fun hagree => hagree _ _ hdp hdq, fun hkeyed => ⟨?_, ?_⟩⟩
  · intro hshape t u ht hu
    rw [hkeyed.type_eq ht hdp, hkeyed.type_eq hu hdq]
    exact hshape
  · intro hparent
    rw [← hparent] at hdq
    exact hkeyed.type_eq hdp hdq

/-! ## A cat and a dog -/

/-- A schema with a pet that is a cat, whose size is a number, or a dog, whose size is a word. -/
def petSchema : Schema :=
  ⟨"Query", none, [
    ("Query", .object ⟨"Query", [], [("pet", ⟨"pet", .named "Pet", []⟩)]⟩),
    ("Pet", .union "Pet" ["Cat", "Dog"]),
    ("Cat", .object ⟨"Cat", [], [("size", ⟨"size", .int, []⟩), ("name", ⟨"name", .string, []⟩)]⟩),
    ("Dog", .object ⟨"Dog", [], [("size", ⟨"size", .string, []⟩),
      ("name", ⟨"name", .string, []⟩)]⟩)]⟩

/-- The size and the name of a pet, whatever it is. -/
def petShape : OperationShape where
  kind := .query
  members := [.nested { name := "pet" } [
    .narrowed "Cat" [.leaf { name := "size" }, .leaf { name := "name" }],
    .narrowed "Dog" [.leaf { name := "size" }, .leaf { name := "name" }]]]

/-- A field of an animal. -/
def petField (animal name : String) (type : FieldType) : Field :=
  ⟨name, none, animal, type, [], false⟩

def petAnalyzed : SelectionSet :=
  ⟨.query, none, "Query", [.field ⟨"pet", none, "Query", .named "Pet", [], false⟩ [
    .inline "Cat" [.field (petField "Cat" "size" .int) [],
      .field (petField "Cat" "name" .string) []],
    .inline "Dog" [.field (petField "Dog" "size" .string) [],
      .field (petField "Dog" "name" .string) []],
    addedTypename "Pet"]]⟩

theorem analyze_pet : analyze petSchema petShape 512 = .ok petAnalyzed := by
  cbv

theorem mergedAt_pet : mergedAt (collectFields petAnalyzed.selections) ["pet"] = [
    (petField "Cat" "size" .int, []), (petField "Cat" "name" .string, []),
    (petField "Dog" "size" .string, []), (petField "Dog" "name" .string, []),
    (Field.typename "Pet" none true, [])] := by
  cbv

theorem keyedFields_pet : petSchema.KeyedFields := by
  simp only [Schema.KeyedFields, petSchema, List.forall_mem_cons, TypeDefinition.objectType?,
    Option.some.injEq, forall_eq']
  simp

/-- The schema gives the names of cats and dogs one shape, and their sizes two. -/
theorem merged_response_shape_pet :
    analyze petSchema petShape 512 = .ok petAnalyzed ∧ petSchema.KeyedFields ∧
      petSchema.AgreeOn "Cat" "Dog" "name" ∧ ¬ petSchema.AgreeOn "Cat" "Dog" "size" := by
  have hmem : ∀ {p : CollectedField}, p ∈ mergedAt (collectFields petAnalyzed.selections) ["pet"] ↔
      p ∈ _ := fun {p} => by rw [mergedAt_pet]
  refine ⟨analyze_pet, keyedFields_pet, ?_, fun hagree => ?_⟩
  · have hnames := merged_response_shape analyze_pet
      (p := (petField "Cat" "name" .string, [])) (q := (petField "Dog" "name" .string, []))
      (hmem.mpr (by simp)) (hmem.mpr (by simp)) rfl
    exact (hnames.2.2.2.2 keyedFields_pet).1 rfl
  · have hsizes := merged_response_shape analyze_pet
      (p := (petField "Cat" "size" .int, [])) (q := (petField "Dog" "size" .string, []))
      (hmem.mpr (by simp)) (hmem.mpr (by simp)) rfl
    have hshape := hsizes.2.2.2.1 hagree
    revert hshape
    decide

/-- Analysis lets the sizes of a cat and a dog merge, though one is a number and one a word. -/
theorem pet_sizes_differ :
    analyze petSchema petShape 512 = .ok petAnalyzed ∧
      (petField "Cat" "size" .int, []) ∈ mergedAt (collectFields petAnalyzed.selections) ["pet"] ∧
      (petField "Dog" "size" .string, []) ∈
        mergedAt (collectFields petAnalyzed.selections) ["pet"] ∧
      (petField "Cat" "size" .int).responseKey = (petField "Dog" "size" .string).responseKey ∧
      petSchema.sameShape .int .string = false := by
  refine ⟨analyze_pet, ?_, ?_, rfl, by decide⟩
  · rw [mergedAt_pet]
    exact List.mem_cons_self
  · rw [mergedAt_pet]
    simp

end Analysis

end QueryShapes
