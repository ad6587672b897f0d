/-
  Analysis accepts a type condition exactly if it can be met.

  Analysis compares the object types of two positions, and materialization holds the
  type that an object says against the type condition.  Both come down to one thing:
  the object types of a position are those that meet it as a condition
  (`mem_possibleTypes_iff`).  So positions of two types overlap exactly if an object
  type of the one meets the other as a condition, and what analysis refuses is met by
  no object at all (`typesOverlap_iff_applies`).

  A schema has to say what its names stand for: types stand under their own names,
  and what an `implements` list names is an interface.  The lists may form circles.
-/
import QueryShapes.Analysis.Resolution
import QueryShapes.Materialization
import QueryShapes.Proofs.Schema.Subtyping

namespace QueryShapes

/-! ## Object types of a position -/

namespace Schema

/-- Every type stands under its own name, and no name stands twice. -/
structure KeyedTypes (s : Schema) : Prop where
  nodup : s.types.keys.Nodup
  name : ∀ e ∈ s.types, e.2.name = e.1

/-- Whatever is implemented is an interface. -/
def ImplementsInterfaces (s : Schema) : Prop :=
  ∀ name next, s.Implements name next → ∃ t, s.type? next = some (.interface t)

variable {s : Schema} {name type : String} {d : TypeDefinition}

theorem KeyedTypes.type?_eq_some_iff (h : s.KeyedTypes) :
    s.type? name = some d ↔ d ∈ s.types.values ∧ d.name = name := by
  unfold type?
  rw [Entries.get?_eq_some_iff h.nodup]
  constructor
  · intro hmem
    exact ⟨List.mem_map.mpr ⟨_, hmem, rfl⟩, h.name _ hmem⟩
  · rintro ⟨hmem, rfl⟩
    obtain ⟨⟨key, d⟩, he, rfl⟩ := List.mem_map.mp hmem
    rwa [h.name _ he]

/-- Only an interface or a union has types below it. -/
theorem ImplementsInterfaces.abstract (h : s.ImplementsInterfaces)
    (hsub : s.isSubtype type name = true) :
    (∃ t, s.type? type = some (.interface t)) ∨
      ∃ described members, s.type? type = some (.union described members) := by
  rcases isSubtype_iff.mp hsub with htrans | ⟨member, -, described, members, hd, -⟩
  · obtain ⟨last, -, hlink⟩ := Relation.TransGen.tail'_iff.mp htrans
    exact Or.inl (h last type hlink)
  · exact Or.inr ⟨described, members, hd⟩

/-- The object types below a type that is none itself, as they are listed. -/
theorem KeyedTypes.mem_below_iff (h : s.KeyedTypes)
    (hno : ∀ t, s.type? type ≠ some (.object t)) :
    name ∈ (s.types.values.filterMap fun
      | .object t => if s.isSubtype type t.name then some t.name else none
      | _ => none).eraseDups ↔
      (∃ t, s.type? name = some (.object t)) ∧ (name = type ∨ s.isSubtype type name = true) := by
  rw [List.mem_eraseDups, List.mem_filterMap]
  constructor
  · rintro ⟨d, hd, hname⟩
    split at hname
    · rename_i t
      split at hname
      · rename_i hsub
        cases hname
        exact ⟨⟨t, h.type?_eq_some_iff.mpr ⟨hd, rfl⟩⟩, Or.inr hsub⟩
      · cases hname
    · cases hname
  · rintro ⟨⟨t, ht⟩, rfl | hsub⟩
    · exact absurd ht (hno t)
    · obtain ⟨hmem, rfl⟩ := h.type?_eq_some_iff.mp ht
      have hsub : s.isSubtype type t.name = true := hsub
      exact ⟨_, hmem, if_pos hsub⟩

/-- A position can hold the object types that are its own type or below it. -/
theorem mem_possibleTypes_iff (hk : s.KeyedTypes) (hi : s.ImplementsInterfaces) :
    name ∈ s.possibleTypes type ↔ (∃ t, s.type? name = some (.object t)) ∧
      (name = type ∨ s.isSubtype type name = true) := by
  unfold possibleTypes
  split
  · rename_i t ht
    have hname : t.name = type := (hk.type?_eq_some_iff.mp ht).2
    rw [hname, List.mem_singleton]
    constructor
    · rintro rfl
      exact ⟨⟨t, ht⟩, Or.inl rfl⟩
    · rintro ⟨-, heq | hsub⟩
      · exact heq
      · rcases hi.abstract hsub with ⟨t', ht'⟩ | ⟨described, members, ht'⟩
        · cases ht.symm.trans ht'
        · cases ht.symm.trans ht'
  · rename_i t ht
    exact hk.mem_below_iff fun t' ht' => by cases ht.symm.trans ht'
  · rename_i described members ht
    exact hk.mem_below_iff fun t' ht' => by cases ht.symm.trans ht'
  · rename_i hobject hinterface hunion
    refine iff_of_false List.not_mem_nil ?_
    rintro ⟨⟨t, ht⟩, rfl | hsub⟩
    · exact hobject t ht
    · rcases hi.abstract hsub with ⟨t', ht'⟩ | ⟨described, members, ht'⟩
      · exact hinterface t' ht'
      · exact hunion described members ht'

end Schema

/-! ## Objects of a position -/

namespace Analysis

open Materialization

variable {s : Schema} {parent condition name : String}

/-- Some object of a position of the parent type, which says its type, meets the type condition. -/
def CanApply (s : Schema) (parent condition : String) : Prop :=
  ∃ name ∈ s.possibleTypes parent, ∃ members : Json.Object,
    members.get? Name.typename = some (.str name) ∧
      applies s condition parent (typename? members) = true

theorem applies_of_typename {members : Json.Object}
    (h : members.get? Name.typename = some (.str name)) :
    applies s condition parent (typename? members) = true ↔
      name = condition ∨ s.isSubtype condition name = true := by
  have hname : typename? members = some name := by
    unfold typename?
    rw [h]
    rfl
  rw [hname, applies, Option.getD_some, Bool.or_eq_true, beq_iff_eq]

/-- Positions of two types overlap exactly if an object type of the one is, or is below, the
    other. -/
theorem typesOverlap_iff (hk : s.KeyedTypes) (hi : s.ImplementsInterfaces)
    (hne : parent ≠ condition) : s.typesOverlap parent condition = true ↔
      ∃ name ∈ s.possibleTypes parent, name = condition ∨ s.isSubtype condition name = true := by
  unfold Schema.typesOverlap
  rw [beq_eq_false_iff_ne.mpr hne, Bool.false_or, List.any_eq_true]
  constructor
  · rintro ⟨name, hcondition, hparent⟩
    exact ⟨name, List.contains_iff_mem.mp hparent, ((Schema.mem_possibleTypes_iff hk hi).mp
      hcondition).2⟩
  · rintro ⟨name, hparent, hbelow⟩
    have hobject := ((Schema.mem_possibleTypes_iff hk hi).mp hparent).1
    exact ⟨name, (Schema.mem_possibleTypes_iff hk hi).mpr ⟨hobject, hbelow⟩,
      List.contains_iff_mem.mpr hparent⟩

/-- Every type name is said by some object. -/
theorem exists_says (name : String) :
    ∃ members : Json.Object, members.get? Name.typename = some (.str name) :=
  ⟨[(Name.typename, .str name)], by rw [Entries.get?_cons, if_pos rfl]⟩

theorem typesOverlap_iff_canApply (hk : s.KeyedTypes) (hi : s.ImplementsInterfaces)
    (hne : parent ≠ condition) : s.typesOverlap parent condition = true ↔
      CanApply s parent condition := by
  rw [typesOverlap_iff hk hi hne]
  constructor
  · rintro ⟨name, hparent, hbelow⟩
    obtain ⟨members, hsays⟩ := exists_says name
    exact ⟨name, hparent, members, hsays, (applies_of_typename hsays).mpr hbelow⟩
  · rintro ⟨name, hparent, members, hsays, happlies⟩
    exact ⟨name, hparent, (applies_of_typename hsays).mp happlies⟩

/-! ## What analysis refuses -/

variable {r : Resolver}

/-- A composite condition on members is refused only if the positions do not overlap. -/
theorem checkCondition_eq (hc : r.schema.isComposite condition = true) :
    r.checkCondition parent condition false =
      if r.schema.typesOverlap parent condition then .ok ()
      else .error (.invalidTypeCondition condition parent) := by
  unfold Resolver.checkCondition
  rw [hc]
  cases r.schema.typesOverlap parent condition <;> rfl

/-- A fragment on a composite type is refused only if the positions do not overlap. -/
theorem checkFragment_eq {fragment : FragmentHead}
    (hc : r.schema.isComposite fragment.onType = true)
    (hn : ∀ n, fragment.name = some n → Name.isValid n = true) :
    r.checkFragment parent fragment false =
      if r.schema.typesOverlap parent fragment.onType then .ok ()
      else .error (.invalidFragmentTarget fragment.onType parent) := by
  unfold Resolver.checkFragment
  rw [hc]
  cases hname : fragment.name with
  | none => cases r.schema.typesOverlap parent fragment.onType <;> rfl
  | some n =>
    simp only [checkName, hn n hname, if_true]
    cases r.schema.typesOverlap parent fragment.onType <;> rfl

/-- A check that is passed exactly if something holds, and has one error. -/
theorem check_iff {b : Bool} {e : CompileError} {p : Prop} (h : b = true ↔ p) :
    ((if b then .ok () else .error e : Except CompileError Unit) = .ok () ↔ p) ∧
      ((if b then .ok () else .error e : Except CompileError Unit) = .error e ↔ ¬ p) := by
  rw [← h]
  cases b <;> simp

/-- Where types stand under their own names and implement interfaces only, positions of two
    different types overlap exactly if there is an object type of the one that the objects which say
    it meet the other with, as a type condition.  So analysis accepts exactly the conditions and
    fragments that some object of the position meets, and what it refuses as not overlapping is met
    by none. -/
theorem typesOverlap_iff_applies {s : Schema} (hk : s.KeyedTypes) (hi : s.ImplementsInterfaces)
    {parent condition : String} (hne : parent ≠ condition) :
    (s.typesOverlap parent condition = true ↔
      ∃ name ∈ s.possibleTypes parent, (∃ t, s.type? name = some (.object t)) ∧
        ∀ members : Json.Object, members.get? Name.typename = some (.str name) →
          applies s condition parent (typename? members) = true) ∧
      ∀ r : Resolver, r.schema = s → s.isComposite condition = true →
        (r.checkCondition parent condition false = .ok () ↔ CanApply s parent condition) ∧
          (r.checkCondition parent condition false =
            .error (.invalidTypeCondition condition parent) ↔ ¬ CanApply s parent condition) ∧
          ∀ fragment : FragmentHead, fragment.onType = condition →
            (∀ n, fragment.name = some n → Name.isValid n = true) →
              (r.checkFragment parent fragment false = .ok () ↔ CanApply s parent condition) ∧
                (r.checkFragment parent fragment false =
                  .error (.invalidFragmentTarget condition parent) ↔
                    ¬ CanApply s parent condition) := by
  have hoverlap := typesOverlap_iff_canApply hk hi hne
  refine ⟨?_, ?_⟩
  · rw [typesOverlap_iff hk hi hne]
    constructor
    · rintro ⟨name, hparent, hbelow⟩
      exact ⟨name, hparent, ((Schema.mem_possibleTypes_iff hk hi).mp hparent).1,
        fun members hsays => (applies_of_typename hsays).mpr hbelow⟩
    · rintro ⟨name, hparent, -, happlies⟩
      obtain ⟨members, hsays⟩ := exists_says name
      exact ⟨name, hparent, (applies_of_typename hsays).mp (happlies members hsays)⟩
  · rintro r rfl hc
    have hcondition := check_iff (e := .invalidTypeCondition condition parent) hoverlap
    rw [← checkCondition_eq hc] at hcondition
    refine ⟨hcondition.1, hcondition.2, ?_⟩
    rintro fragment rfl hn
    have hfragment := check_iff (e := .invalidFragmentTarget fragment.onType parent) hoverlap
    rwa [← checkFragment_eq hc hn] at hfragment

/-! ## Two interfaces that implement each other -/

/-- A droid is a member, and so a node, for each of the two interfaces implements the other; a ship
    is neither.  Both can be found. -/
def ringSchema : Schema :=
  ⟨"Query", none, [
    ("Query", .object ⟨"Query", [], [("found", ⟨"found", .named "Found", []⟩)]⟩),
    ("Node", .interface ⟨"Node", ["Member"], []⟩),
    ("Member", .interface ⟨"Member", ["Node"], []⟩),
    ("Droid", .object ⟨"Droid", ["Member"], []⟩),
    ("Ship", .object ⟨"Ship", [], []⟩),
    ("Found", .union "Found" ["Droid", "Ship"])]⟩

theorem keyedTypes_ring : ringSchema.KeyedTypes where
  nodup := by decide
  name := by simp [ringSchema, TypeDefinition.name]

theorem implementsInterfaces_ring : ringSchema.ImplementsInterfaces := by
  rintro name next ⟨t, ht, hnext⟩
  have hmem : (name, .object t) ∈ ringSchema.types ∨ (name, .interface t) ∈ ringSchema.types :=
    ht.imp Entries.mem_of_get? Entries.mem_of_get?
  have hmember : next = "Member" ∨ next = "Node" := by
    simp only [ringSchema, List.mem_cons, Prod.mk.injEq, TypeDefinition.object.injEq,
      TypeDefinition.interface.injEq, reduceCtorEq, and_false, false_or, or_false,
      List.not_mem_nil] at hmem
    rcases hmem with (⟨-, rfl⟩ | ⟨-, rfl⟩ | ⟨-, rfl⟩) | ⟨-, rfl⟩ | ⟨-, rfl⟩ <;> simp_all
  rcases hmember with rfl | rfl
  · exact ⟨_, rfl⟩
  · exact ⟨_, rfl⟩

/-- What is found can be a node, for a droid meets the condition over two links; a ship cannot, and
    is refused. -/
theorem typesOverlap_iff_applies_ring :
    ringSchema.KeyedTypes ∧ ringSchema.ImplementsInterfaces ∧
      (∃ name ∈ ringSchema.possibleTypes "Found", (∃ t, ringSchema.type? name = some (.object t)) ∧
        ∀ members : Json.Object, members.get? Name.typename = some (.str name) →
          applies ringSchema "Node" "Found" (typename? members) = true) ∧
      (⟨ringSchema, [], 512⟩ : Resolver).checkCondition "Ship" "Node" false =
        .error (.invalidTypeCondition "Node" "Ship") ∧
      ¬ CanApply ringSchema "Ship" "Node" := by
  have hfound := (typesOverlap_iff_applies keyedTypes_ring implementsInterfaces_ring
    (by decide : "Found" ≠ "Node")).1.mp (by cbv)
  have hrefused : (⟨ringSchema, [], 512⟩ : Resolver).checkCondition "Ship" "Node" false =
      .error (.invalidTypeCondition "Node" "Ship") := by cbv
  have hnever := ((typesOverlap_iff_applies keyedTypes_ring implementsInterfaces_ring
    (by decide : "Ship" ≠ "Node")).2 ⟨ringSchema, [], 512⟩ rfl (by cbv)).2.1.mp hrefused
  exact ⟨keyedTypes_ring, implementsInterfaces_ring, hfound, hrefused, hnever⟩

end Analysis

end QueryShapes
