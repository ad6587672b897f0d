/-
  What is grounded does not depend on itself.

  The search for circles follows what a definition uses, then what that uses, and so on;
  it goes no further where it comes to something that is on its path already, and
  accepts if that is never the definition itself.  A trail that leads back to a
  definition can be cut to one without repetition (`Trail.trim`), and that one the
  search follows to its end (`not_trail_of_pathsEnd`).
-/
import Mathlib.Logic.Relation
import QueryShapes.Schema.Sdl.Dependence

namespace QueryShapes.Sdl

variable {uses : Reference → List Reference} {root a b v : Reference}
  {path inner : List Reference}

/-- A chain of uses, with the references between its ends. -/
inductive Trail (uses : Reference → List Reference) : Reference → Reference → List Reference → Prop
  | single {a b : Reference} (h : b ∈ uses a) : Trail uses a b []
  | cons {a m b : Reference} {inner : List Reference} (h : m ∈ uses a)
      (hrest : Trail uses m b inner) : Trail uses a b (m :: inner)

namespace Trail

theorem of_transGen (h : Relation.TransGen (fun a b => b ∈ uses a) a b) :
    ∃ inner, Trail uses a b inner := by
  induction h using Relation.TransGen.head_induction_on with
  | single h => exact ⟨[], single h⟩
  | head h _ ih =>
    obtain ⟨inner, hrest⟩ := ih
    exact ⟨_ :: inner, cons h hrest⟩

/-- The rest of a trail behind the last time that it comes to a reference. -/
theorem suffix (h : Trail uses a b inner) (hv : v ∈ inner) :
    ∃ inner', Trail uses v b inner' ∧ v ∉ inner' ∧ inner' ⊆ inner := by
  induction h with
  | single h => cases hv
  | @cons a m b inner h hrest ih =>
    by_cases hlater : v ∈ inner
    · obtain ⟨inner', htrail, hnot, hsub⟩ := ih hlater
      exact ⟨inner', htrail, hnot, List.subset_cons_of_subset m hsub⟩
    · obtain rfl : v = m := (List.mem_cons.mp hv).resolve_right hlater
      exact ⟨inner, hrest, hlater, List.subset_cons_self v inner⟩

/-- A trail does not have to come back to where it begins. -/
theorem trim (h : Trail uses a b inner) : ∃ inner', Trail uses a b inner' ∧ a ∉ inner' ∧
    inner' ⊆ inner := by
  by_cases ha : a ∈ inner
  · exact h.suffix ha
  · exact ⟨inner, h, ha, List.Subset.refl inner⟩

end Trail

/-- A search that accepts has found no way from the end of its path to its root. -/
theorem not_trail_of_pathsEnd {fuel : Nat} (h : pathsEnd uses root fuel path a = true)
    (hroot : root ∈ path) (hinner : ∀ x ∈ inner, x ∉ path) : ¬ Trail uses a root inner := by
  induction fuel generalizing path a inner with
  | zero => cases h
  | succ fuel ih =>
    intro htrail
    rw [pathsEnd, List.all_eq_true] at h
    cases htrail with
    | single hlink =>
      have hend := h root hlink
      rw [if_pos (List.contains_iff_mem.mpr hroot), bne_self_eq_false] at hend
      cases hend
    | @cons _ m _ inner hlink hrest =>
      have hend := h m hlink
      obtain ⟨hm, hinner⟩ := List.forall_mem_cons.mp hinner
      rw [if_neg (mt List.contains_iff_mem.mp hm), Bool.and_eq_true] at hend
      obtain ⟨inner', htrimmed, hnot, hsub⟩ := hrest.trim
      refine ih hend.2 (List.mem_cons_of_mem m hroot) ?_ htrimmed
      intro x hx hmem
      rcases List.mem_cons.mp hmem with rfl | hmem
      · exact hnot hx
      · exact hinner x (hsub hx) hmem

/-- Nothing grounded is on a circle of uses. -/
theorem not_transGen_of_isGrounded (h : isGrounded uses root = true) :
    ¬ Relation.TransGen (fun a b => b ∈ uses a) root root := by
  intro hcircle
  obtain ⟨inner, htrail⟩ := Trail.of_transGen hcircle
  obtain ⟨inner', htrimmed, hnot, -⟩ := htrail.trim
  refine not_trail_of_pathsEnd h List.mem_cons_self ?_ htrimmed
  intro x hx hmem
  exact hnot (List.mem_singleton.mp hmem ▸ hx)

end QueryShapes.Sdl
