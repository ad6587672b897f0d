/-
  What the resolution of members does when it succeeds, one lemma for each kind
  of member: the checks that passed and the selection that came out.

  `listInduction` is the induction over a list of members that goes with them.
-/
import QueryShapes.Analysis.Basic
import QueryShapes.Proofs.Except

namespace QueryShapes

namespace Member

/-- Induction over a list of members, with the members below its head and the rest of it. -/
@[elab_as_elim]
theorem listInduction {motive : List Member → Prop} (nil : motive [])
    (leaf : ∀ request rest, motive rest → motive (.leaf request :: rest))
    (nested : ∀ request ms rest, motive ms → motive rest → motive (.nested request ms :: rest))
    (reusing : ∀ request fragment ms rest, motive ms → motive rest →
      motive (.reusing request fragment ms :: rest))
    (spread : ∀ fragment ms rest, motive ms → motive rest → motive (.spread fragment ms :: rest))
    (narrowed : ∀ condition ms rest, motive ms → motive rest →
      motive (.narrowed condition ms :: rest)) : ∀ members, motive members
  | [] => nil
  | .leaf request :: rest =>
    leaf request rest (listInduction nil leaf nested reusing spread narrowed rest)
  | .nested request ms :: rest =>
    nested request ms rest (listInduction nil leaf nested reusing spread narrowed ms)
      (listInduction nil leaf nested reusing spread narrowed rest)
  | .reusing request fragment ms :: rest =>
    reusing request fragment ms rest (listInduction nil leaf nested reusing spread narrowed ms)
      (listInduction nil leaf nested reusing spread narrowed rest)
  | .spread fragment ms :: rest =>
    spread fragment ms rest (listInduction nil leaf nested reusing spread narrowed ms)
      (listInduction nil leaf nested reusing spread narrowed rest)
  | .narrowed condition ms :: rest =>
    narrowed condition ms rest (listInduction nil leaf nested reusing spread narrowed ms)
      (listInduction nil leaf nested reusing spread narrowed rest)

end Member

namespace Analysis.Resolver

variable {r : Resolver} {parent : String} {depth : Nat} {taken : List String}

/-! ## Lists of members -/

@[simp] theorem resolveMembers_nil : r.resolveMembers parent depth taken [] = .ok [] := by
  rw [resolveMembers]

theorem resolveMembers_cons {m : Member} {rest : List Member} {selections : List Selection}
    (h : r.resolveMembers parent depth taken (m :: rest) = .ok selections) :
    ∃ s taken' others, r.resolveMember parent depth m = .ok s ∧
      takeKey parent taken s = .ok taken' ∧
      r.resolveMembers parent depth taken' rest = .ok others ∧ selections = s :: others := by
  rw [resolveMembers] at h
  simp only [bind_eq_ok, pure_eq_ok] at h
  obtain ⟨s, hs, taken', ht, others, ho, rfl⟩ := h
  exact ⟨s, taken', others, hs, ht, ho, rfl⟩

/-! ## Single members -/

theorem resolveMember_leaf {request : FieldRequest} {s : Selection}
    (h : r.resolveMember parent depth (.leaf request) = .ok s) :
    ∃ f, r.field parent request false false = .ok f ∧ s = .field f [] := by
  rw [resolveMember] at h
  simp only [bind_eq_ok, pure_eq_ok] at h
  obtain ⟨f, hf, rfl⟩ := h
  exact ⟨f, hf, rfl⟩

theorem resolveMember_nested {request : FieldRequest} {ms : List Member} {s : Selection}
    (h : r.resolveMember parent depth (.nested request ms) = .ok s) :
    ∃ f subs, r.field parent request true ms.isEmpty = .ok f ∧ r.checkDepth (depth + 1) = .ok () ∧
      r.resolveMembers f.type.innerName (depth + 1) [] ms = .ok subs ∧
      s = .field f (withTypename f.type.innerName subs) := by
  rw [resolveMember] at h
  simp only [bind_eq_ok, pure_eq_ok] at h
  obtain ⟨f, hf, ⟨⟩, hd, subs, hsubs, rfl⟩ := h
  exact ⟨f, subs, hf, hd, hsubs, rfl⟩

theorem resolveMember_reusing {request : FieldRequest} {fragment : FragmentHead}
    {ms : List Member} {s : Selection}
    (h : r.resolveMember parent depth (.reusing request fragment ms) = .ok s) :
    ∃ f subs, r.field parent request true false = .ok f ∧
      r.checkFragment f.type.innerName fragment ms.isEmpty = .ok () ∧
      r.checkDepth (depth + 2) = .ok () ∧
      r.resolveMembers fragment.onType (depth + 2) [] ms = .ok subs ∧
      s = .field f (withTypename f.type.innerName
        [.marker fragment.name fragment.onType (withTypename fragment.onType subs)]) := by
  rw [resolveMember] at h
  simp only [bind_eq_ok, pure_eq_ok] at h
  obtain ⟨f, hf, ⟨⟩, hc, ⟨⟩, hd, subs, hsubs, rfl⟩ := h
  exact ⟨f, subs, hf, hc, hd, hsubs, rfl⟩

theorem resolveMember_spread {fragment : FragmentHead} {ms : List Member} {s : Selection}
    (h : r.resolveMember parent depth (.spread fragment ms) = .ok s) :
    ∃ subs, r.checkFragment parent fragment ms.isEmpty = .ok () ∧
      r.checkDepth (depth + 1) = .ok () ∧
      r.resolveMembers fragment.onType (depth + 1) [] ms = .ok subs ∧
      s = .marker fragment.name fragment.onType (withTypename fragment.onType subs) := by
  rw [resolveMember] at h
  simp only [bind_eq_ok, pure_eq_ok] at h
  obtain ⟨⟨⟩, hc, ⟨⟩, hd, subs, hsubs, rfl⟩ := h
  exact ⟨subs, hc, hd, hsubs, rfl⟩

theorem resolveMember_narrowed {condition : String} {ms : List Member} {s : Selection}
    (h : r.resolveMember parent depth (.narrowed condition ms) = .ok s) :
    ∃ subs, r.checkCondition parent condition ms.isEmpty = .ok () ∧
      r.checkDepth (depth + 1) = .ok () ∧
      r.resolveMembers condition (depth + 1) [] ms = .ok subs ∧
      s = .inline condition (withTypename condition subs) := by
  rw [resolveMember] at h
  simp only [bind_eq_ok, pure_eq_ok] at h
  obtain ⟨⟨⟩, hc, ⟨⟩, hd, subs, hsubs, rfl⟩ := h
  exact ⟨subs, hc, hd, hsubs, rfl⟩

end Analysis.Resolver

end QueryShapes
