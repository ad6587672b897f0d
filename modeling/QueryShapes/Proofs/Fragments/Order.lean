/-
  The order in which a document comes to its fragments.

  `Visits` is the walk of a reader who follows a list from left to right and
  enters a definition where its fragment is spread for the first time.  The walk
  ends in one way only (`Visits.unique`), and the list spreads all it comes to,
  directly or through other fragments (`Visits.reached`).
-/
import QueryShapes.Proofs.Fragments.Acyclic

namespace QueryShapes

namespace Fragments

open Selection

/-- Reading a list without markers left to right and depth first leads from the names of the
    fragments entered before to the names entered after it, in the order of their first spreads. -/
inductive Visits (fragments : List FragmentDefinition) :
    List String → List Selection → List String → Prop
  | nil (entered : List String) : Visits fragments entered [] entered
  | field {f : Field} {subs rest : List Selection} {entered middle after : List String} :
    Visits fragments entered subs middle → Visits fragments middle rest after →
      Visits fragments entered (.field f subs :: rest) after
  | inline {condition : String} {subs rest : List Selection}
    {entered middle after : List String} :
    Visits fragments entered subs middle → Visits fragments middle rest after →
      Visits fragments entered (.inline condition subs :: rest) after
  | again {name condition : String} {rest : List Selection} {entered after : List String} :
    name ∈ entered → Visits fragments entered rest after →
      Visits fragments entered (.spread name condition :: rest) after
  | first {name condition : String} {rest : List Selection} {d : FragmentDefinition}
    {entered middle after : List String} :
    name ∉ entered → find? fragments name = some d →
      Visits fragments (entered ++ [name]) d.selections middle →
      Visits fragments middle rest after →
      Visits fragments entered (.spread name condition :: rest) after

/-- A list spreads a fragment, directly or through others. -/
def Reaches (fragments : List FragmentDefinition) (selections : List Selection) (name : String) :
    Prop :=
  ∃ x ∈ allSpreads selections, Relation.ReflTransGen (Uses fragments) x.1 name

theorem Reaches.of_within {fragments : List FragmentDefinition} {part whole : List Selection}
    (hw : Within part whole) {name : String} (h : Reaches fragments part name) :
    Reaches fragments whole name := by
  obtain ⟨x, hx, hreach⟩ := h
  exact ⟨x, hw.spreads x hx, hreach⟩

namespace Visits

variable {fragments : List FragmentDefinition} {selections : List Selection}
  {entered middle after after' : List String}

theorem append {as bs : List Selection} (h : Visits fragments entered as middle)
    (h' : Visits fragments middle bs after) : Visits fragments entered (as ++ bs) after := by
  induction h with
  | nil entered => exact h'
  | field hsubs _ _ ihr => exact .field hsubs (ihr h')
  | inline hsubs _ _ ihr => exact .inline hsubs (ihr h')
  | again hmem _ ihr => exact .again hmem (ihr h')
  | first hnew hfind hbody _ _ ihr => exact .first hnew hfind hbody (ihr h')

/-- A walk ends in one way only. -/
theorem unique (h : Visits fragments entered selections after)
    (h' : Visits fragments entered selections after') : after = after' := by
  induction h generalizing after' with
  | nil entered =>
    cases h'
    rfl
  | field _ _ ihs ihr =>
    cases h' with
    | field hsubs hrest =>
      obtain rfl := ihs hsubs
      exact ihr hrest
  | inline _ _ ihs ihr =>
    cases h' with
    | inline hsubs hrest =>
      obtain rfl := ihs hsubs
      exact ihr hrest
  | again hmem _ ihr =>
    cases h' with
    | again _ hrest => exact ihr hrest
    | first hnew _ _ _ => exact absurd hmem hnew
  | first hnew hfind _ _ ihs ihr =>
    cases h' with
    | again hmem _ => exact absurd hmem hnew
    | first _ hfind' hbody hrest =>
      obtain rfl := Option.some.inj (hfind.symm.trans hfind')
      obtain rfl := ihs hbody
      exact ihr hrest

/-- Nothing is entered twice. -/
theorem nodup (h : Visits fragments entered selections after) (hn : entered.Nodup) :
    after.Nodup := by
  induction h with
  | nil entered => exact hn
  | field _ _ ihs ihr | inline _ _ ihs ihr => exact ihr (ihs hn)
  | again _ _ ihr => exact ihr hn
  | first hnew _ _ _ ihs ihr =>
    refine ihr (ihs ?_)
    rw [← List.concat_eq_append]
    exact hn.concat hnew

/-- What a walk comes to was entered before, or the list reaches it. -/
theorem reached (h : Visits fragments entered selections after) {name : String}
    (hname : name ∈ after) : name ∈ entered ∨ Reaches fragments selections name := by
  induction h with
  | nil entered => exact Or.inl hname
  | @field f subs rest entered middle after _ _ ihs ihr =>
    rcases ihr hname with hmiddle | hrest
    · exact (ihs hmiddle).imp_right (.of_within (within_children_cons (.field f subs) rest))
    · exact Or.inr (.of_within (within_tail _ rest) hrest)
  | @inline condition subs rest entered middle after _ _ ihs ihr =>
    rcases ihr hname with hmiddle | hrest
    · exact (ihs hmiddle).imp_right
        (.of_within (within_children_cons (.inline condition subs) rest))
    · exact Or.inr (.of_within (within_tail _ rest) hrest)
  | again _ _ ihr => exact (ihr hname).imp_right (.of_within (within_tail _ _))
  | @first spread condition rest d entered middle after _ hfind _ _ ihs ihr =>
    have hspread : (spread, condition) ∈ allSpreads (.spread spread condition :: rest) := by
      rw [allSpreads]
      exact List.mem_cons_self
    rcases ihr hname with hmiddle | hrest
    · rcases ihs hmiddle with hentered | ⟨x, hx, hreach⟩
      · rcases List.mem_append.mp hentered with hentered | hself
        · exact Or.inl hentered
        · rw [List.mem_singleton] at hself
          subst hself
          exact Or.inr ⟨_, hspread, .refl⟩
      · -- the fragment that is entered here spreads what its definition does
        have huses : Uses fragments spread x.1 := ⟨d, hfind, x.2, hx⟩
        exact Or.inr ⟨_, hspread, .head huses hreach⟩
    · exact Or.inr (.of_within (within_tail _ rest) hrest)

end Visits

end Fragments

end QueryShapes
