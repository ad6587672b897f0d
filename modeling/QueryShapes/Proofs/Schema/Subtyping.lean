/-
  A subtype is what a chain of `implements` lists leads from.

  `Implements` is one link of such a chain, and `HasMember` the union that ends one.  The
  interfaces above a type are those at the end of a chain of one link or more
  (`mem_supertypes_iff`), so a type is below another exactly if a chain leads from it
  to that interface, or to a member of that union (`isSubtype_iff_chain`).  Nothing is
  assumed of the schema: links may form circles, meet again, or end at a name that is
  not defined.
-/
import Mathlib.Data.List.Chain
import QueryShapes.Proofs.Entries
import QueryShapes.Proofs.Reachability
import QueryShapes.Schema.Subtyping

namespace QueryShapes.Schema

variable {s : Schema} {name next x abstractType member : String}

/-- An object type or interface lists an interface itself. -/
def Implements (s : Schema) (name next : String) : Prop :=
  ∃ t : ObjectType, (s.type? name = some (.object t) ∨ s.type? name = some (.interface t)) ∧
    next ∈ t.implements

/-- A union lists a member. -/
def HasMember (s : Schema) (abstractType member : String) : Prop :=
  ∃ described members, s.type? abstractType = some (.union described members) ∧
    member ∈ members

/-! ## Links -/

theorem mem_implementedBy_iff : next ∈ s.implementedBy name ↔ s.Implements name next := by
  unfold implementedBy Implements
  cases hd : s.type? name with
  | none => simp
  | some d => cases d <;> simp [TypeDefinition.objectType?]

/-- The links of a type that is found. -/
theorem implements_iff_of_objectType? {t : ObjectType}
    (ht : (s.type? name).bind TypeDefinition.objectType? = some t) :
    s.Implements name next ↔ next ∈ t.implements := by
  rw [← mem_implementedBy_iff, implementedBy, ht]

theorem mem_unionMembers_iff :
    member ∈ s.unionMembers abstractType ↔ s.HasMember abstractType member := by
  unfold unionMembers HasMember
  cases hd : s.type? abstractType with
  | none => simp
  | some d => cases d <;> simp

/-- Only a type that is defined has a link, so a search follows all of them. -/
theorem step_iff : s.implementsGraph.Step name next ↔ s.Implements name next := by
  show name ∈ s.types.keys ∧ next ∈ s.implementedBy name ↔ _
  rw [mem_implementedBy_iff]
  refine and_iff_right_of_imp ?_
  rintro ⟨t, hd, -⟩
  rw [Entries.mem_keys_iff, Entries.contains]
  have hsome : s.types.get? name = some (.object t) ∨ s.types.get? name = some (.interface t) := hd
  rcases hsome with hd | hd
  · rw [hd, Option.isSome_some]
  · rw [hd, Option.isSome_some]

/-! ## Chains -/

theorem mem_supertypes_iff : x ∈ s.supertypes name ↔ Relation.TransGen s.Implements name x := by
  have hstep : s.implementsGraph.Step = s.Implements := funext fun _ => funext fun _ =>
    propext step_iff
  unfold supertypes
  rw [NameGraph.mem_above_iff, hstep]

/-- The types below an interface lead to it, and those below a union to one of its members. -/
theorem isSubtype_iff : s.isSubtype abstractType name = true ↔
    Relation.TransGen s.Implements name abstractType ∨
      ∃ member, Relation.ReflTransGen s.Implements name member ∧ s.HasMember abstractType member := by
  unfold isSubtype
  simp only [Bool.or_eq_true, List.contains_iff_mem, List.any_eq_true, beq_iff_eq,
    mem_supertypes_iff, mem_unionMembers_iff, Relation.reflTransGen_iff_eq_or_transGen]
  refine or_congr_right (exists_congr fun member => ?_)
  rw [and_comm]

/-- Whether a type is below another is decided, and it is so exactly if there is a chain from the
    type, each one listed by the one before, that ends at the interface after a link or more, or at
    a member of the union after any number of links. -/
theorem isSubtype_iff_chain (s : Schema) (abstractType name : String) :
    s.isSubtype abstractType name = true ↔
      ∃ chain : List String, (name :: chain).IsChain s.Implements ∧
        (chain ≠ [] ∧ (name :: chain).getLast (List.cons_ne_nil _ _) = abstractType ∨
          s.HasMember abstractType ((name :: chain).getLast (List.cons_ne_nil _ _))) := by
  rw [isSubtype_iff]
  constructor
  · rintro (htrans | ⟨member, hr, hmember⟩)
    · obtain ⟨next, hlink, hr⟩ := Relation.TransGen.head'_iff.mp htrans
      obtain ⟨chain, hchain, hlast⟩ := List.exists_isChain_cons_of_relationReflTransGen hr
      refine ⟨next :: chain, .cons_cons hlink hchain, Or.inl ⟨List.cons_ne_nil _ _, ?_⟩⟩
      rw [List.getLast_cons_cons, hlast]
    · obtain ⟨chain, hchain, hlast⟩ := List.exists_isChain_cons_of_relationReflTransGen hr
      refine ⟨chain, hchain, Or.inr ?_⟩
      rwa [hlast]
  · rintro ⟨chain, hchain, ⟨hne, hlast⟩ | hmember⟩
    · cases chain with
      | nil => exact absurd rfl hne
      | cons next chain =>
        obtain ⟨hlink, hchain⟩ := List.isChain_cons_cons.mp hchain
        rw [List.getLast_cons_cons] at hlast
        have hr := List.relationReflTransGen_of_exists_isChain_cons chain hchain hlast
        exact Or.inl (Relation.TransGen.head' hlink hr)
    · exact Or.inr ⟨_, List.relationReflTransGen_of_exists_isChain_cons chain hchain rfl, hmember⟩

end QueryShapes.Schema
