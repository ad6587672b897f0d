/-
  A search of a graph finds what paths lead to.

  The search keeps one list of seen names for all its branches.  A branch that meets
  a seen name ends there, and hides nothing: whatever the seen names lead to is seen
  itself or lies behind a pending name (`Frontier.covers`).  Each of the three ways to
  take a pending name keeps this, and keeps what is covered in all; so a whole search
  finds the pending names and all that they lead to (`mem_explore_iff`).
-/
import Mathlib.Logic.Relation
import QueryShapes.Reachability

namespace QueryShapes.NameGraph

variable {g : NameGraph} {seen pending : List String} {a b t x : String}

/-- One step in the graph; a name that is no node leads nowhere. -/
def Step (g : NameGraph) (a b : String) : Prop := a ∈ g.nodes ∧ b ∈ g.next a

/-- A path of any number of steps. -/
abbrev Reaches (g : NameGraph) : String → String → Prop := Relation.ReflTransGen g.Step

/-- What a seen name leads to in one step is seen or pending. -/
def Frontier (g : NameGraph) (seen pending : List String) : Prop :=
  ∀ a ∈ seen, ∀ b, g.Step a b → b ∈ seen ∨ b ∈ pending

/-- What a search still has to find, together with what it has seen. -/
def Covers (g : NameGraph) (seen pending : List String) (x : String) : Prop :=
  x ∈ seen ∨ ∃ t ∈ pending, g.Reaches t x

/-! ## One pending name -/

namespace Frontier

/-- A path that leaves the seen names does so through a pending one. -/
theorem covers (h : g.Frontier seen pending) (ha : a ∈ seen) (hr : g.Reaches a x) :
    g.Covers seen pending x := by
  induction hr using Relation.ReflTransGen.head_induction_on with
  | refl => exact Or.inl ha
  | head hstep hrest ih =>
    rcases h _ ha _ hstep with hseen | hpending
    · exact ih hseen
    · exact Or.inr ⟨_, hpending, hrest⟩

/-- A pending name that is seen already can be dropped. -/
theorem drop (h : g.Frontier seen (t :: pending)) (ht : t ∈ seen) : g.Frontier seen pending := by
  intro a ha b hb
  rcases h a ha b hb with hseen | hpending
  · exact Or.inl hseen
  · rcases List.mem_cons.mp hpending with rfl | hpending
    · exact Or.inl ht
    · exact Or.inr hpending

theorem covers_drop (h : g.Frontier seen (t :: pending)) (ht : t ∈ seen) :
    g.Covers seen pending x ↔ g.Covers seen (t :: pending) x := by
  constructor
  · rintro (hseen | ⟨u, hu, hr⟩)
    · exact Or.inl hseen
    · exact Or.inr ⟨u, List.mem_cons_of_mem _ hu, hr⟩
  · rintro (hseen | ⟨u, hu, hr⟩)
    · exact Or.inl hseen
    · rcases List.mem_cons.mp hu with rfl | hu
      · exact (h.drop ht).covers ht hr
      · exact Or.inr ⟨u, hu, hr⟩

/-- A new name becomes seen when its successors become pending. -/
theorem visit {added : List String} (h : g.Frontier seen (t :: pending))
    (hadded : ∀ b, g.Step t b ↔ b ∈ added) : g.Frontier (t :: seen) (added ++ pending) := by
  intro a ha b hb
  rcases List.mem_cons.mp ha with rfl | ha
  · exact Or.inr (List.mem_append_left _ ((hadded b).mp hb))
  · rcases h a ha b hb with hseen | hpending
    · exact Or.inl (List.mem_cons_of_mem _ hseen)
    · rcases List.mem_cons.mp hpending with rfl | hpending
      · exact Or.inl List.mem_cons_self
      · exact Or.inr (List.mem_append_right _ hpending)

theorem covers_visit {added : List String} (h : g.Frontier seen (t :: pending))
    (hadded : ∀ b, g.Step t b ↔ b ∈ added) :
    g.Covers (t :: seen) (added ++ pending) x ↔ g.Covers seen (t :: pending) x := by
  constructor
  · rintro (hseen | ⟨u, hu, hr⟩)
    · rcases List.mem_cons.mp hseen with rfl | hseen
      · exact Or.inr ⟨x, List.mem_cons_self, .refl⟩
      · exact Or.inl hseen
    · rcases List.mem_append.mp hu with hu | hu
      · exact Or.inr ⟨t, List.mem_cons_self, hr.head ((hadded u).mpr hu)⟩
      · exact Or.inr ⟨u, List.mem_cons_of_mem _ hu, hr⟩
  · rintro (hseen | ⟨u, hu, hr⟩)
    · exact Or.inl (List.mem_cons_of_mem _ hseen)
    · rcases List.mem_cons.mp hu with rfl | hu
      · exact (h.visit hadded).covers List.mem_cons_self hr
      · exact Or.inr ⟨u, List.mem_append_right _ hu, hr⟩

end Frontier

/-! ## The whole search -/

/-- A search finds the seen names, the pending ones and all that these lead to. -/
theorem mem_explore_iff (h : g.Frontier seen pending) :
    x ∈ g.explore seen pending ↔ g.Covers seen pending x := by
  -- Each round of the search leaves what is covered as it is, so the induction is on the rounds,
  -- with the frontier carried along.
  fun_induction g.explore seen pending with
  | case1 seen => simp [Covers]
  | case2 seen t pending ht ih =>
    rw [ih (h.drop ht)]
    exact h.covers_drop ht
  | case3 seen t pending ht hn ih =>
    have hadded : ∀ b, g.Step t b ↔ b ∈ g.next t := fun b => and_iff_right hn
    rw [ih (h.visit hadded)]
    exact h.covers_visit hadded
  | case4 seen t pending ht hn ih =>
    have hadded : ∀ b, g.Step t b ↔ b ∈ [] := fun b =>
      iff_of_false (fun hstep => hn hstep.1) List.not_mem_nil
    rw [ih (h.visit hadded)]
    exact h.covers_visit hadded

/-- Above a name stand exactly the names that a path of at least one step leads to. -/
theorem mem_above_iff {name : String} : x ∈ g.above name ↔ Relation.TransGen g.Step name x := by
  rw [Relation.TransGen.head'_iff]
  unfold above
  by_cases hn : name ∈ g.nodes
  · have hempty : g.Frontier [] (g.next name) := fun a ha => absurd ha List.not_mem_nil
    rw [if_pos hn, mem_explore_iff hempty]
    constructor
    · rintro (hseen | ⟨u, hu, hr⟩)
      · exact absurd hseen List.not_mem_nil
      · exact ⟨u, ⟨hn, hu⟩, hr⟩
    · rintro ⟨u, hstep, hr⟩
      exact Or.inr ⟨u, hstep.2, hr⟩
  · rw [if_neg hn]
    constructor
    · intro hx
      exact absurd hx List.not_mem_nil
    · rintro ⟨u, hstep, -⟩
      exact absurd hstep.1 hn

end QueryShapes.NameGraph
