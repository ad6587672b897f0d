/-
  Putting fragments back: `expand` enters the spreads of a list, `inlineMarkers`
  puts the markers of a list back inline.

  `expand` turns every spread into a marker of the definition's content,
  recursively through nested definitions.  On an acyclic set of definitions its
  bound is never reached (`expand_spread`).  `inlineMarkers` splices a marker's
  content into a list on the type of its condition and makes it an inline
  fragment on every other list.  Both keep fields, their order and the values of
  their arguments.
-/
import Mathlib.Data.Nat.SuccPred
import QueryShapes.Proofs.Fragments.Acyclic

namespace QueryShapes

/-- The definition with the values of all arguments changed. -/
def FragmentDefinition.mapValues (g : ArgumentValue → ArgumentValue) (d : FragmentDefinition) :
    FragmentDefinition := { d with selections := Selection.mapValues g d.selections }

namespace Fragments

open Selection

/-! ## Entering spreads -/

/-- The list with every defined spread replaced by a marker of what `enter` makes of the
    definition's selections. -/
def expandWith (fragments : List FragmentDefinition) (enter : List Selection → List Selection) :
    List Selection → List Selection
  | [] => []
  | .field f subs :: rest =>
    .field f (expandWith fragments enter subs) :: expandWith fragments enter rest
  | .spread name condition :: rest =>
    (match find? fragments name with
      | some d => .marker (some name) condition (enter d.selections)
      | none => .spread name condition) :: expandWith fragments enter rest
  | .inline condition subs :: rest =>
    .inline condition (expandWith fragments enter subs) :: expandWith fragments enter rest
  | .marker name condition subs :: rest =>
    .marker name condition (expandWith fragments enter subs) :: expandWith fragments enter rest

/-- The list with its spreads entered up to a depth. -/
def expandTo (fragments : List FragmentDefinition) : Nat → List Selection → List Selection
  | 0 => id
  | depth + 1 => expandWith fragments (expandTo fragments depth)

/-- The list with its spreads entered.  No chain of spreads in which none comes twice is longer
    than the number of definitions. -/
def expand (fragments : List FragmentDefinition) : List Selection → List Selection :=
  expandWith fragments (expandTo fragments fragments.length)

variable {fragments : List FragmentDefinition}

@[simp] theorem expand_nil : expand fragments [] = [] := by simp [expand, expandWith]

@[simp] theorem expand_field (f : Field) (subs rest : List Selection) :
    expand fragments (.field f subs :: rest) =
      .field f (expand fragments subs) :: expand fragments rest := by
  simp [expand, expandWith]

@[simp] theorem expand_inline (condition : String) (subs rest : List Selection) :
    expand fragments (.inline condition subs :: rest) =
      .inline condition (expand fragments subs) :: expand fragments rest := by
  simp [expand, expandWith]

@[simp] theorem expand_marker (name : Option String) (condition : String)
    (subs rest : List Selection) :
    expand fragments (.marker name condition subs :: rest) =
      .marker name condition (expand fragments subs) :: expand fragments rest := by
  simp [expand, expandWith]

theorem expandWith_append (enter : List Selection → List Selection) (as bs : List Selection) :
    expandWith fragments enter (as ++ bs) =
      expandWith fragments enter as ++ expandWith fragments enter bs := by
  induction as with
  | nil => simp [expandWith]
  | cons a as ih => cases a <;> simp [expandWith, ih]

theorem expand_append (as bs : List Selection) :
    expand fragments (as ++ bs) = expand fragments as ++ expand fragments bs :=
  expandWith_append _ as bs

/-- Only what is made of the spread definitions matters. -/
theorem expandWith_congr {enter enter' : List Selection → List Selection}
    {selections : List Selection}
    (h : ∀ x ∈ allSpreads selections, ∀ d, find? fragments x.1 = some d →
      enter d.selections = enter' d.selections) :
    expandWith fragments enter selections = expandWith fragments enter' selections := by
  induction selections using listInduction with
  | nil => simp [expandWith]
  | field f subs rest ihs ihr =>
    simp only [allSpreads, List.mem_append] at h
    simp only [expandWith]
    rw [ihs fun x hx => h x (Or.inl hx), ihr fun x hx => h x (Or.inr hx)]
  | spread name condition rest ihr =>
    simp only [allSpreads, List.mem_cons] at h
    simp only [expandWith]
    rw [ihr fun x hx => h x (Or.inr hx)]
    cases hd : find? fragments name with
    | none => rfl
    | some d => simp only [h _ (Or.inl rfl) d hd]
  | inline condition subs rest ihs ihr =>
    simp only [allSpreads, List.mem_append] at h
    simp only [expandWith]
    rw [ihs fun x hx => h x (Or.inl hx), ihr fun x hx => h x (Or.inr hx)]
  | marker name condition subs rest ihs ihr =>
    simp only [allSpreads, List.mem_append] at h
    simp only [expandWith]
    rw [ihs fun x hx => h x (Or.inl hx), ihr fun x hx => h x (Or.inr hx)]

/-- Two depths that exceed the ranks of all spreads make no difference. -/
theorem expandWith_expandTo_eq (rank : String → Nat)
    (hrank : ∀ a b, Uses fragments a b → (find? fragments b).isSome → rank b < rank a)
    (depth depth' : Nat) (selections : List Selection)
    (h : ∀ x ∈ allSpreads selections, (find? fragments x.1).isSome →
      rank x.1 < depth ∧ rank x.1 < depth') :
    expandWith fragments (expandTo fragments depth) selections =
      expandWith fragments (expandTo fragments depth') selections := by
  induction depth generalizing depth' selections with
  | zero =>
    refine expandWith_congr fun x hx d hd => ?_
    exact absurd (h x hx (by simp [hd])).1 (Nat.not_lt_zero _)
  | succ depth ih =>
    refine expandWith_congr fun x hx d hd => ?_
    have hx' := h x hx (by simp [hd])
    obtain ⟨depth', rfl⟩ : ∃ n, depth' = n + 1 := ⟨depth' - 1, by omega⟩
    refine ih depth' d.selections fun y hy hdef => ?_
    have := hrank x.1 y.1 ⟨d, hd, y.2, hy⟩ hdef
    omega

/-- A spread of an acyclic set of definitions is entered. -/
theorem expand_spread (hac : Acyclic fragments) {name : String} {d : FragmentDefinition}
    (hd : find? fragments name = some d) (condition : String) (rest : List Selection) :
    expand fragments (.spread name condition :: rest) =
      .marker (some name) condition (expand fragments d.selections) :: expand fragments rest := by
  have hmem : ∀ {n : String} {e : FragmentDefinition}, find? fragments n = some e →
      n ∈ fragments.map (·.name) := fun he =>
    List.mem_map.mpr ⟨_, mem_of_find? he, name_of_find? he⟩
  have hrank : ∀ a b, Uses fragments a b → (find? fragments b).isSome →
      reach fragments (fragments.map (·.name)) b < reach fragments (fragments.map (·.name)) a := by
    intro a b hab hb
    obtain ⟨e, he⟩ := Option.isSome_iff_exists.mp hb
    exact reach_lt_of_uses hac (hmem he) hab
  have hname := reach_lt_length hac (hmem hd)
  rw [List.length_map] at hname
  obtain ⟨n, hn⟩ : ∃ n, fragments.length = n + 1 := ⟨fragments.length - 1, by omega⟩
  -- the body needs one level less, and there is one to spare
  have hbody : expandTo fragments fragments.length d.selections =
      expand fragments d.selections := by
    unfold expand
    rw [hn, expandTo]
    refine expandWith_expandTo_eq _ hrank n (n + 1) d.selections fun y hy hdef => ?_
    have := hrank name y.1 ⟨d, hd, y.2, hy⟩ hdef
    omega
  rw [← hbody]
  simp [expand, expandWith, hd]

/-- Entering spreads brings in fields of the definitions only. -/
theorem mem_allFields_expandWith {enter : List Selection → List Selection}
    (henter : ∀ d ∈ fragments, ∀ f ∈ allFields (enter d.selections),
      ∃ d ∈ fragments, f ∈ allFields d.selections)
    {selections : List Selection} {f : Field}
    (h : f ∈ allFields (expandWith fragments enter selections)) :
    f ∈ allFields selections ∨ ∃ d ∈ fragments, f ∈ allFields d.selections := by
  induction selections using listInduction with
  | nil => simp [expandWith, allFields] at h
  | field f' subs rest ihs ihr =>
    simp only [expandWith, allFields, List.mem_cons, List.mem_append] at h ⊢
    rcases h with h | h | h
    · exact Or.inl (Or.inl h)
    · exact (ihs h).imp_left fun h => Or.inr (Or.inl h)
    · exact (ihr h).imp_left fun h => Or.inr (Or.inr h)
  | spread name condition rest ihr =>
    cases hd : find? fragments name with
    | none =>
      simp only [expandWith, hd, allFields] at h ⊢
      exact ihr h
    | some d =>
      simp only [expandWith, hd, allFields, List.mem_append] at h ⊢
      rcases h with h | h
      · exact Or.inr (henter d (mem_of_find? hd) f h)
      · exact ihr h
  | inline condition subs rest ihs ihr =>
    simp only [expandWith, allFields, List.mem_append] at h ⊢
    rcases h with h | h
    · exact (ihs h).imp_left Or.inl
    · exact (ihr h).imp_left Or.inr
  | marker name condition subs rest ihs ihr =>
    simp only [expandWith, allFields, List.mem_append] at h ⊢
    rcases h with h | h
    · exact (ihs h).imp_left Or.inl
    · exact (ihr h).imp_left Or.inr

theorem mem_allFields_expand {selections : List Selection} {f : Field}
    (h : f ∈ allFields (expand fragments selections)) :
    f ∈ allFields selections ∨ ∃ d ∈ fragments, f ∈ allFields d.selections := by
  have hto : ∀ depth, ∀ d ∈ fragments, ∀ f ∈ allFields (expandTo fragments depth d.selections),
      ∃ d ∈ fragments, f ∈ allFields d.selections := by
    intro depth
    induction depth with
    | zero => exact fun d hd f hf => ⟨d, hd, hf⟩
    | succ depth ih =>
      intro d hd f hf
      rcases mem_allFields_expandWith ih hf with hf | hf
      · exact ⟨d, hd, hf⟩
      · exact hf
  exact mem_allFields_expandWith (hto _) h

/-! ## Changing values and entering spreads -/

theorem find?_mapValues (g : ArgumentValue → ArgumentValue) (name : String) :
    find? (fragments.map (FragmentDefinition.mapValues g)) name =
      (find? fragments name).map (FragmentDefinition.mapValues g) := by
  unfold find?
  rw [List.find?_map]
  rfl

theorem expandWith_mapValues (g : ArgumentValue → ArgumentValue)
    {enter enter' : List Selection → List Selection}
    (h : ∀ selections, enter' (mapValues g selections) = mapValues g (enter selections))
    (selections : List Selection) :
    expandWith (fragments.map (FragmentDefinition.mapValues g)) enter' (mapValues g selections) =
      mapValues g (expandWith fragments enter selections) := by
  induction selections using listInduction with
  | nil => simp [expandWith, mapValues]
  | field f subs rest ihs ihr => simp [expandWith, mapValues, ihs, ihr]
  | spread name condition rest ihr =>
    simp only [mapValues, expandWith, ihr, find?_mapValues]
    cases hd : find? fragments name with
    | none => simp [mapValues]
    | some d => simp [mapValues, FragmentDefinition.mapValues, h]
  | inline condition subs rest ihs ihr => simp [expandWith, mapValues, ihs, ihr]
  | marker name condition subs rest ihs ihr => simp [expandWith, mapValues, ihs, ihr]

theorem expand_mapValues (g : ArgumentValue → ArgumentValue) (selections : List Selection) :
    expand (fragments.map (FragmentDefinition.mapValues g)) (mapValues g selections) =
      mapValues g (expand fragments selections) := by
  have hto : ∀ depth selections,
      expandTo (fragments.map (FragmentDefinition.mapValues g)) depth (mapValues g selections) =
        mapValues g (expandTo fragments depth selections) := by
    intro depth
    induction depth with
    | zero => exact fun _ => rfl
    | succ depth ih => exact expandWith_mapValues g ih
  unfold expand
  rw [List.length_map]
  exact expandWith_mapValues g (hto _) selections

end Fragments

namespace Selection

/-! ## Putting markers back -/

/-- The selections of a list on a parent type with all markers put back inline. -/
def inlineMarkers (parent : String) : List Selection → List Selection
  | [] => []
  | .field f subs :: rest =>
    .field f (inlineMarkers f.type.innerName subs) :: inlineMarkers parent rest
  | .spread name condition :: rest => .spread name condition :: inlineMarkers parent rest
  | .inline condition subs :: rest =>
    .inline condition (inlineMarkers condition subs) :: inlineMarkers parent rest
  | .marker _ condition subs :: rest =>
    if condition = parent then inlineMarkers condition subs ++ inlineMarkers parent rest
    else .inline condition (inlineMarkers condition subs) :: inlineMarkers parent rest

theorem inlineMarkers_append (parent : String) (as bs : List Selection) :
    inlineMarkers parent (as ++ bs) = inlineMarkers parent as ++ inlineMarkers parent bs := by
  induction as with
  | nil => simp [inlineMarkers]
  | cons a as ih =>
    cases a with
    | field f subs => simp [inlineMarkers, ih]
    | spread name condition => simp [inlineMarkers, ih]
    | inline condition subs => simp [inlineMarkers, ih]
    | marker name condition subs =>
      by_cases h : condition = parent <;> simp [inlineMarkers, ih, h]

theorem allFields_inlineMarkers (parent : String) (selections : List Selection) :
    allFields (inlineMarkers parent selections) = allFields selections := by
  induction selections using listInduction generalizing parent with
  | nil => simp [inlineMarkers]
  | field f subs rest ihs ihr => simp [inlineMarkers, allFields, ihs, ihr]
  | spread name condition rest ihr => simp [inlineMarkers, allFields, ihr]
  | inline condition subs rest ihs ihr => simp [inlineMarkers, allFields, ihs, ihr]
  | marker name condition subs rest ihs ihr =>
    by_cases h : condition = parent
    · simp [inlineMarkers, allFields, allFields_append, ihs, ihr, h]
    · simp [inlineMarkers, allFields, ihs, ihr, h]

theorem inlineMarkers_mapValues (g : ArgumentValue → ArgumentValue) (parent : String)
    (selections : List Selection) :
    inlineMarkers parent (mapValues g selections) =
      mapValues g (inlineMarkers parent selections) := by
  induction selections using listInduction generalizing parent with
  | nil => simp [inlineMarkers, mapValues]
  | field f subs rest ihs ihr => simp [inlineMarkers, mapValues, ihs, ihr]
  | spread name condition rest ihr => simp [inlineMarkers, mapValues, ihr]
  | inline condition subs rest ihs ihr => simp [inlineMarkers, mapValues, ihs, ihr]
  | marker name condition subs rest ihs ihr =>
    by_cases h : condition = parent
    · simp [inlineMarkers, mapValues, mapValues_append, ihs, ihr, h]
    · simp [inlineMarkers, mapValues, ihs, ihr, h]

end Selection

/-- The selections of a list on a parent type with all spreads and markers put back inline. -/
def Fragments.putBack (fragments : List FragmentDefinition) (parent : String)
    (selections : List Selection) : List Selection :=
  Selection.inlineMarkers parent (Fragments.expand fragments selections)

end QueryShapes
