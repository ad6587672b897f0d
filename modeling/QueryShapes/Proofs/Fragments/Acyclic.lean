/-
  The graph of fragment definitions: which definition spreads which.

  A set of definitions is acyclic if none spreads itself, directly or through
  others.  Then every definition has a rank below the number of definitions that
  falls along every spread (`reach_lt_of_uses`, `reach_lt_length`), so entering
  spreads ends after boundedly many steps.
-/
import Mathlib.Data.Finset.Card
import Mathlib.Data.Finset.Filter
import Mathlib.Data.List.Dedup
import Mathlib.Logic.Relation
import QueryShapes.Proofs.Selection.Traversal

namespace QueryShapes

namespace Fragments

open Selection

/-- The definition of a fragment. -/
def find? (fragments : List FragmentDefinition) (name : String) : Option FragmentDefinition :=
  fragments.find? (·.name = name)

/-- Whether every spread of a list names a definition. -/
def Resolves (fragments : List FragmentDefinition) (selections : List Selection) : Prop :=
  ∀ x ∈ allSpreads selections, (find? fragments x.1).isSome

/-- The first fragment spreads the second at some depth of its own selections. -/
def Uses (fragments : List FragmentDefinition) (a b : String) : Prop :=
  ∃ d, find? fragments a = some d ∧ ∃ condition, (b, condition) ∈ allSpreads d.selections

/-- No fragment spreads itself, directly or through others. -/
def Acyclic (fragments : List FragmentDefinition) : Prop :=
  ∀ name, ¬ Relation.TransGen (Uses fragments) name name

variable {fragments : List FragmentDefinition}

theorem name_of_find? {name : String} {d : FragmentDefinition}
    (h : find? fragments name = some d) : d.name = name := by
  have := List.find?_some h
  simpa using this

theorem mem_of_find? {name : String} {d : FragmentDefinition}
    (h : find? fragments name = some d) : d ∈ fragments :=
  List.mem_of_find?_eq_some h

theorem resolves_append {as bs : List Selection} :
    Resolves fragments (as ++ bs) ↔ Resolves fragments as ∧ Resolves fragments bs := by
  simp only [Resolves, allSpreads_append, List.mem_append]
  constructor
  · intro h
    exact ⟨fun x hx => h x (Or.inl hx), fun x hx => h x (Or.inr hx)⟩
  · intro h x hx
    rcases hx with hx | hx
    · exact h.1 x hx
    · exact h.2 x hx

theorem Resolves.tail {s : Selection} {rest : List Selection}
    (h : Resolves fragments (s :: rest)) : Resolves fragments rest :=
  fun x hx => h x ((within_tail s rest).spreads x hx)

theorem Resolves.children {selections : List Selection} (h : Resolves fragments selections)
    {s : Selection} (hs : s ∈ selections) : Resolves fragments (children s) :=
  fun x hx => h x ((within_children hs).spreads x hx)

/-! ## Ranks -/

/-- Numbers that fall along every spread exclude cycles. -/
theorem acyclic_of_rank (rank : String → Nat)
    (h : ∀ a b, Uses fragments a b → rank b < rank a) : Acyclic fragments := by
  have falls : ∀ {a b}, Relation.TransGen (Uses fragments) a b → rank b < rank a := by
    intro a b hab
    induction hab with
    | single hab => exact h _ _ hab
    | tail _ hbc ih => exact Nat.lt_trans (h _ _ hbc) ih
  intro name hcycle
  exact Nat.lt_irrefl _ (falls hcycle)

open Classical in
/-- How many of the names are spread by a fragment, directly or through others. -/
noncomputable def reach (fragments : List FragmentDefinition) (names : List String)
    (a : String) : Nat :=
  (names.toFinset.filter fun b => Relation.TransGen (Uses fragments) a b).card

/-- A fragment that is spread reaches fewer names than the one that spreads it. -/
theorem reach_lt_of_uses (hac : Acyclic fragments) {names : List String} {a b : String}
    (hb : b ∈ names) (h : Uses fragments a b) :
    reach fragments names b < reach fragments names a := by
  classical
  apply Finset.card_lt_card
  rw [Finset.ssubset_iff_of_subset]
  · refine ⟨b, ?_, ?_⟩
    · rw [Finset.mem_filter, List.mem_toFinset]
      exact ⟨hb, Relation.TransGen.single h⟩
    · rw [Finset.mem_filter]
      exact fun hbb => hac b hbb.2
  · intro c hc
    rw [Finset.mem_filter] at hc ⊢
    exact ⟨hc.1, Relation.TransGen.head h hc.2⟩

open Classical in
theorem reach_le_length (names : List String) (a : String) :
    reach fragments names a ≤ names.length := by
  unfold reach
  exact (Finset.card_filter_le _ _).trans (List.toFinset_card_le names)

open Classical in
/-- A fragment does not reach itself. -/
theorem reach_lt_length (hac : Acyclic fragments) {names : List String} {a : String}
    (ha : a ∈ names) : reach fragments names a < names.length := by
  have hs := Finset.filter_ssubset.mpr ⟨a, List.mem_toFinset.mpr ha, hac a⟩
  exact Nat.lt_of_lt_of_le (Finset.card_lt_card hs) (List.toFinset_card_le names)

end Fragments

end QueryShapes
