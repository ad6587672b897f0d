/-
  The steps of an object are the fields that apply to it.

  On resolved and acyclic fragments the depth to which spreads are entered is
  never used up: along a chain of spreads fewer and fewer names can be reached,
  and at first these are at most the spreads of all definitions
  (`Context.lists_steps`).
-/
import QueryShapes.Proofs.Fragments.Expansion
import QueryShapes.Proofs.Materialization.Reference

namespace QueryShapes.Materialization

open Selection Fragments Analysis

/-! ## Lists one after the other -/

theorem stepsWith_append (c : Context) (typename : Option String)
    (spread : String → List Selection → List Step) (parent : String) (as bs : List Selection) :
    stepsWith c typename spread parent (as ++ bs) =
      stepsWith c typename spread parent as ++ stepsWith c typename spread parent bs := by
  induction as with
  | nil => simp [stepsWith]
  | cons a as ih => cases a <;> simp [stepsWith, ih]

theorem Context.steps_append (c : Context) (object : Json.Object) (parent : String)
    (as bs : List Selection) :
    c.steps object parent (as ++ bs) = c.steps object parent as ++ c.steps object parent bs := by
  unfold steps
  cases c.spreadDepth with
  | zero => exact stepsWith_append c _ _ parent as bs
  | succ depth => exact stepsWith_append c _ _ parent as bs

/-! ## Fields as steps -/

/-- The step of a field. -/
def Step.ofField (p : CollectedField) : Step := .field p.1 p.2

/-- The field with the spreads below it entered. -/
def expandField (fragments : List FragmentDefinition) (p : CollectedField) : CollectedField :=
  (p.1, expand fragments p.2)

/-- The steps are the fields that apply once spreads are entered, each with its own selections,
    whose spreads have definitions too. -/
def Lists (schema : Schema) (fragments : List FragmentDefinition) (typename : Option String)
    (parent : String) (selections : List Selection) (steps : List Step) : Prop :=
  ∃ fields : List CollectedField, steps = fields.map Step.ofField ∧
    applying schema typename parent (expand fragments selections) =
      fields.map (expandField fragments) ∧
    ∀ p ∈ fields, Resolves fragments p.2

theorem applying_append (schema : Schema) (typename : Option String) (parent : String)
    (as bs : List Selection) :
    applying schema typename parent (as ++ bs) =
      applying schema typename parent as ++ applying schema typename parent bs := by
  induction as with
  | nil => simp [applying]
  | cons a as ih => cases a <;> simp [applying, ih]

namespace Lists

variable {schema : Schema} {fragments : List FragmentDefinition} {typename : Option String}
  {parent condition : String} {as bs : List Selection} {steps steps' : List Step}

theorem nil : Lists schema fragments typename parent [] [] := by
  refine ⟨[], rfl, ?_, ?_⟩ <;> simp [applying]

theorem append (h : Lists schema fragments typename parent as steps)
    (h' : Lists schema fragments typename parent bs steps') :
    Lists schema fragments typename parent (as ++ bs) (steps ++ steps') := by
  obtain ⟨fields, rfl, ha, hr⟩ := h
  obtain ⟨fields', rfl, hb, hr'⟩ := h'
  refine ⟨fields ++ fields', (List.map_append ..).symm, ?_, fun p hp => ?_⟩
  · rw [expand_append, applying_append, ha, hb, List.map_append]
  · exact (List.mem_append.mp hp).elim (hr p) (hr' p)

theorem field (f : Field) {subs : List Selection} (hr : Resolves fragments subs) :
    Lists schema fragments typename parent [.field f subs] [.field f subs] := by
  refine ⟨[(f, subs)], rfl, ?_, ?_⟩
  · simp [applying, expandField]
  · simpa using hr

/-- The steps of what stands under a type condition, if it applies. -/
theorem conditioned (h : Lists schema fragments typename condition as steps)
    (hsingle : applying schema typename parent (expand fragments bs) =
      if applies schema condition parent typename then
        applying schema typename condition (expand fragments as) else []) :
    Lists schema fragments typename parent bs
      (if applies schema condition parent typename then steps else []) := by
  obtain ⟨fields, rfl, ha, hr⟩ := h
  cases happlies : applies schema condition parent typename with
  | true =>
    rw [happlies, if_pos rfl, ha] at hsingle
    exact ⟨fields, if_pos rfl, hsingle, hr⟩
  | false =>
    rw [happlies, if_neg Bool.false_ne_true] at hsingle
    refine ⟨[], if_neg Bool.false_ne_true, hsingle, fun p hp => ?_⟩
    cases hp

theorem inline (h : Lists schema fragments typename condition as steps) :
    Lists schema fragments typename parent [.inline condition as]
      (if applies schema condition parent typename then steps else []) :=
  h.conditioned (by simp [applying])

theorem marker (name : Option String) (h : Lists schema fragments typename condition as steps) :
    Lists schema fragments typename parent [.marker name condition as]
      (if applies schema condition parent typename then steps else []) :=
  h.conditioned (by simp [applying])

theorem spread (hac : Acyclic fragments) {name : String} {d : FragmentDefinition}
    (hd : find? fragments name = some d)
    (h : Lists schema fragments typename condition d.selections steps) :
    Lists schema fragments typename parent [.spread name condition]
      (if applies schema condition parent typename then steps else []) :=
  h.conditioned (by rw [expand_spread hac hd]; simp [applying])

end Lists

variable {schema : Schema} {fragments : List FragmentDefinition} {typename : Option String}

/-- A list has the steps of its fields if the spreads in it do. -/
theorem lists_stepsWith (hac : Acyclic fragments)
    {spread : String → List Selection → List Step} {parent : String}
    {selections : List Selection} (hr : Resolves fragments selections)
    (hspread : ∀ x ∈ allSpreads selections, ∀ d, find? fragments x.1 = some d →
      Lists schema fragments typename x.2 d.selections (spread x.2 d.selections)) :
    Lists schema fragments typename parent selections
      (stepsWith ⟨schema, fragments⟩ typename spread parent selections) := by
  induction selections using listInduction generalizing parent with
  | nil =>
    rw [stepsWith]
    exact .nil
  | field f subs rest ihs ihr =>
    rw [stepsWith]
    exact (Lists.field f (hr.children (s := .field f subs) List.mem_cons_self)).append
      (ihr hr.tail fun x hx => hspread x ((within_tail _ rest).spreads x hx))
  | spread name condition rest ihr =>
    obtain ⟨d, hd⟩ := Option.isSome_iff_exists.mp (hr (name, condition) (by simp [allSpreads]))
    have hbody := hspread (name, condition) (by simp [allSpreads]) d hd
    have hfragment : Context.fragment? ⟨schema, fragments⟩ name = some d := hd
    rw [stepsWith, hfragment]
    exact (Lists.spread hac hd hbody).append
      (ihr hr.tail fun x hx => hspread x ((within_tail _ rest).spreads x hx))
  | inline condition subs rest ihs ihr =>
    have hwithin := within_children_cons (.inline condition subs) rest
    have hsubs : Lists schema fragments typename condition subs
        (stepsWith ⟨schema, fragments⟩ typename spread condition subs) :=
      ihs (hr.children (s := .inline condition subs) List.mem_cons_self)
        fun x hx => hspread x (hwithin.spreads x hx)
    rw [stepsWith]
    exact hsubs.inline.append
      (ihr hr.tail fun x hx => hspread x ((within_tail _ rest).spreads x hx))
  | marker name condition subs rest ihs ihr =>
    have hwithin := within_children_cons (.marker name condition subs) rest
    have hsubs : Lists schema fragments typename condition subs
        (stepsWith ⟨schema, fragments⟩ typename spread condition subs) :=
      ihs (hr.children (s := .marker name condition subs) List.mem_cons_self)
        fun x hx => hspread x (hwithin.spreads x hx)
    rw [stepsWith]
    exact (hsubs.marker name).append
      (ihr hr.tail fun x hx => hspread x ((within_tail _ rest).spreads x hx))

/-! ## The depth suffices -/

/-- A list has the steps of its fields at every depth beyond the ranks of its spreads. -/
theorem lists_stepsTo (hac : Acyclic fragments)
    (hb : ∀ d ∈ fragments, Resolves fragments d.selections) (rank : String → Nat)
    (hrank : ∀ a b, Uses fragments a b → rank b < rank a) (depth : Nat) {parent : String}
    {selections : List Selection} (hr : Resolves fragments selections)
    (hdepth : ∀ x ∈ allSpreads selections, rank x.1 < depth) :
    Lists schema fragments typename parent selections
      (stepsTo ⟨schema, fragments⟩ typename depth parent selections) := by
  induction depth generalizing parent selections with
  | zero =>
    refine lists_stepsWith hac hr fun x hx => ?_
    exact absurd (hdepth x hx) (Nat.not_lt_zero _)
  | succ depth ih =>
    refine lists_stepsWith hac hr fun x hx d hd => ih (hb d (mem_of_find? hd)) fun y hy => ?_
    have hxy := hrank x.1 y.1 ⟨d, hd, y.2, hy⟩
    have hx := hdepth x hx
    omega

theorem spreadCount_eq (selections : List Selection) :
    spreadCount selections = (allSpreads selections).length := by
  induction selections using listInduction with
  | nil => simp [spreadCount, allSpreads]
  | field f subs rest ihs ihr => simp [spreadCount, allSpreads, ihs, ihr]
  | spread name condition rest ihr =>
    simp only [spreadCount, allSpreads, List.length_cons, ihr]
    omega
  | inline condition subs rest ihs ihr => simp [spreadCount, allSpreads, ihs, ihr]
  | marker name condition subs rest ihs ihr => simp [spreadCount, allSpreads, ihs, ihr]

theorem mem_allSpreads_flatMap {d : FragmentDefinition} (hd : d ∈ fragments)
    {x : String × String} (hx : x ∈ allSpreads d.selections) :
    x ∈ allSpreads (fragments.flatMap (·.selections)) := by
  obtain ⟨as, bs, rfl⟩ := List.append_of_mem hd
  rw [List.flatMap_append, List.flatMap_cons, allSpreads_append, allSpreads_append]
  exact List.mem_append_right _ (List.mem_append_left _ hx)

/-- On resolved and acyclic fragments the steps of a list are its fields. -/
theorem Context.lists_steps (hac : Acyclic fragments)
    (hb : ∀ d ∈ fragments, Resolves fragments d.selections) {selections : List Selection}
    (hr : Resolves fragments selections) (object : Json.Object) (parent : String) :
    Lists schema fragments (typename? object) parent selections
      (Context.steps ⟨schema, fragments⟩ object parent selections) := by
  let names := (allSpreads (fragments.flatMap (·.selections))).map Prod.fst
  refine lists_stepsTo hac hb (reach fragments names) (fun a b hab => ?_) _ hr fun x _ => ?_
  · obtain ⟨d, hd, condition, hmem⟩ := hab
    refine reach_lt_of_uses hac ?_ ⟨d, hd, condition, hmem⟩
    exact List.mem_map_of_mem (mem_allSpreads_flatMap (mem_of_find? hd) hmem)
  · have hle : reach fragments names x.1 ≤ names.length := reach_le_length names x.1
    have hlength : names.length = spreadCount (fragments.flatMap (·.selections)) := by
      rw [spreadCount_eq, List.length_map]
    show reach fragments names x.1 < spreadCount (fragments.flatMap (·.selections)) + 1
    omega

end QueryShapes.Materialization
