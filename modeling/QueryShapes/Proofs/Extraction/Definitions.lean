/-
  What extraction defines.

  The selections that extraction writes do not depend on the definitions met so
  far (`replaceMarkers_fst`).  The definitions grow: each one that is added holds
  the replaced selections of a marker lifted under its name, and every spread
  that is written names one of them (`replaceMarkers_extends`).
-/
import QueryShapes.Extraction
import QueryShapes.Proofs.Entries
import QueryShapes.Proofs.Except
import QueryShapes.Proofs.Fragments.Expansion

namespace QueryShapes.Extraction

open Selection Fragments

/-- The group of a marker. -/
def markerKey (m : Marker) : GroupKey := groupKey m.name m.typeCondition m.selections

/-- The digests of different fragment contents of a tree are different. -/
def DistinctFingerprints (selections : List Selection) : Prop :=
  ∀ m ∈ allMarkers selections, ∀ m' ∈ allMarkers selections,
    fingerprint m.typeCondition m.selections = fingerprint m'.typeCondition m'.selections →
      m.typeCondition = m'.typeCondition ∧ m.selections = m'.selections

/-! ## Names -/

theorem nodup_nameGroups {lifted lifted' : Lifted} {groups : List Group}
    (h : nameGroups lifted groups = .ok lifted') (hn : (lifted.map Prod.snd).Nodup) :
    (lifted'.map Prod.snd).Nodup := by
  induction groups generalizing lifted with
  | nil =>
    simp only [nameGroups, Except.ok.injEq] at h
    rwa [← h]
  | cons g rest ih =>
    rw [nameGroups] at h
    split at h
    · exact ih h hn
    · split at h
      · cases h
      · rename_i hfree
        refine ih h ?_
        simp only [List.any_eq_true, decide_eq_true_eq, not_exists, not_and] at hfree
        rw [List.map_append, List.map_singleton, ← List.concat_eq_append]
        refine hn.concat fun hmem => ?_
        obtain ⟨x, hx, hname⟩ := List.mem_map.mp hmem
        exact hfree x hx hname

theorem mem_of_lookup {lifted : Lifted} {key : GroupKey} {name : String}
    (h : lifted.name? key = some name) : (key, name) ∈ lifted := by
  obtain ⟨before, after, rfl, -⟩ := List.lookup_eq_some_iff.mp h
  simp

/-- Groups with the key and the type of some marker. -/
def Group.OfMarkers (markers : List Marker) (g : Group) : Prop :=
  ∃ m ∈ markers, g.key = markerKey m ∧ g.typeCondition = m.typeCondition

theorem ofMarkers_recount {markers : List Marker} {key : GroupKey} {groups : List Group}
    (h : ∀ g ∈ groups, g.OfMarkers markers) : ∀ g ∈ recount key groups, g.OfMarkers markers := by
  intro g hg
  obtain ⟨g', hg', rfl⟩ := List.mem_map.mp hg
  split
  · exact h g' hg'
  · exact h g' hg'

/-- Every group that is counted is that of a marker. -/
theorem ofMarkers_countMarkers {markers : List Marker} {groups : List Group}
    (hg : ∀ g ∈ groups, g.OfMarkers markers) {selections : List Selection}
    (hm : ∀ m ∈ allMarkers selections, m ∈ markers) :
    ∀ g ∈ countMarkers groups selections, g.OfMarkers markers := by
  induction selections using listInduction generalizing groups with
  | nil =>
    rw [countMarkers]
    exact hg
  | field f subs rest ihs ihr =>
    rw [allMarkers, List.forall_mem_append] at hm
    rw [countMarkers]
    exact ihr (ihs hg hm.1) hm.2
  | spread name condition rest ihr =>
    rw [allMarkers] at hm
    rw [countMarkers]
    exact ihr hg hm
  | inline condition subs rest ihs ihr =>
    rw [allMarkers, List.forall_mem_append] at hm
    rw [countMarkers]
    exact ihr (ihs hg hm.1) hm.2
  | marker name condition subs rest ihs ihr =>
    rw [allMarkers, List.forall_mem_cons, List.forall_mem_append] at hm
    rw [countMarkers]
    split
    · exact ihr (ofMarkers_recount hg) hm.2.2
    · refine ihr (ihs ?_ hm.2.1) hm.2.2
      rw [List.forall_mem_append, List.forall_mem_singleton]
      exact ⟨hg, _, hm.1, rfl, rfl⟩

/-- Groups are lifted under the names of their definitions. -/
theorem exists_group_of_mem_nameGroups {lifted lifted' : Lifted} {groups : List Group}
    (h : nameGroups lifted groups = .ok lifted') {p : GroupKey × String} (hp : p ∈ lifted') :
    p ∈ lifted ∨ ∃ g ∈ groups, p = (g.key, g.definitionName) := by
  induction groups generalizing lifted with
  | nil =>
    simp only [nameGroups, Except.ok.injEq] at h
    exact Or.inl (h ▸ hp)
  | cons g rest ih =>
    have hrest : (∃ g ∈ rest, p = (g.key, g.definitionName)) →
        ∃ g' ∈ g :: rest, p = (g'.key, g'.definitionName) :=
      fun ⟨g', hg', hp⟩ => ⟨g', List.mem_cons_of_mem g hg', hp⟩
    rw [nameGroups] at h
    split at h
    · exact (ih h).imp_right hrest
    · split at h
      · cases h
      · rcases ih h with hmem | hmem
        · rcases List.mem_append.mp hmem with hmem | hmem
          · exact Or.inl hmem
          · exact Or.inr ⟨g, List.mem_cons_self, List.mem_singleton.mp hmem⟩
        · exact Or.inr (hrest hmem)

/-- No two groups are lifted under one name. -/
theorem key_eq_of_name? {lifted : Lifted} (hn : (lifted.map Prod.snd).Nodup)
    {key key' : GroupKey} {name : String} (h : lifted.name? key = some name)
    (h' : lifted.name? key' = some name) : key = key' := by
  have := List.inj_on_of_nodup_map hn (mem_of_lookup h) (mem_of_lookup h') rfl
  exact congrArg Prod.fst this

/-! ## The written selections -/

/-- The selections of a list on a parent type with the lifted markers as spreads and the others
    inline. -/
def replaced (lifted : Lifted) (parent : String) : List Selection → List Selection
  | [] => []
  | .field f subs :: rest =>
    .field f (replaced lifted f.type.innerName subs) :: replaced lifted parent rest
  | .spread name condition :: rest => .spread name condition :: replaced lifted parent rest
  | .inline condition subs :: rest =>
    .inline condition (replaced lifted condition subs) :: replaced lifted parent rest
  | .marker name condition subs :: rest =>
    match lifted.name? (groupKey name condition subs) with
    | some fragment => .spread fragment condition :: replaced lifted parent rest
    | none =>
      if condition = parent then replaced lifted condition subs ++ replaced lifted parent rest
      else .inline condition (replaced lifted condition subs) :: replaced lifted parent rest

/-- What is written does not depend on the definitions met so far. -/
theorem replaceMarkers_fst (lifted : Lifted) (parent : String) (definitions : Definitions)
    (selections : List Selection) :
    (replaceMarkers lifted parent definitions selections).1 =
      replaced lifted parent selections := by
  induction selections using listInduction generalizing parent definitions with
  | nil => simp [replaceMarkers, replaced]
  | field f subs rest ihs ihr => simp [replaceMarkers, replaced, ihs, ihr]
  | spread name condition rest ihr => simp [replaceMarkers, replaced, ihr]
  | inline condition subs rest ihs ihr => simp [replaceMarkers, replaced, ihs, ihr]
  | marker name condition subs rest ihs ihr =>
    rw [replaceMarkers, replaced]
    cases lifted.name? (groupKey name condition subs) with
    | none => simp [ihs, ihr]
    | some fragment =>
      dsimp only
      split <;> simp [ihr]

/-- A list whose markers have bodies is not emptied by splicing them in. -/
theorem replaced_ne_nil (lifted : Lifted) (parent : String) {selections : List Selection}
    (h : HasBodies selections) (hne : selections ≠ []) :
    replaced lifted parent selections ≠ [] := by
  induction selections using listInduction generalizing parent with
  | nil => exact absurd rfl hne
  | marker name condition subs rest ihs ihr =>
    rw [HasBodies] at h
    rw [replaced]
    split
    · exact List.cons_ne_nil _ _
    · split
      · exact List.append_ne_nil_of_left_ne_nil (ihs _ h.2.1 h.1) _
      · exact List.cons_ne_nil _ _
  | _ =>
    rw [replaced]
    exact List.cons_ne_nil _ _

theorem hasBodies_replaced (lifted : Lifted) (parent : String) {selections : List Selection}
    (h : HasBodies selections) : HasBodies (replaced lifted parent selections) := by
  induction selections using listInduction generalizing parent with
  | nil =>
    rw [replaced]
    exact h
  | field f subs rest ihs ihr =>
    rw [HasBodies] at h
    rw [replaced, HasBodies]
    exact ⟨ihs _ h.1, ihr _ h.2⟩
  | spread name condition rest ihr =>
    rw [HasBodies] at h
    rw [replaced, HasBodies]
    exact ihr _ h
  | inline condition subs rest ihs ihr =>
    rw [HasBodies] at h
    rw [replaced, HasBodies]
    exact ⟨replaced_ne_nil _ _ h.2.1 h.1, ihs _ h.2.1, ihr _ h.2.2⟩
  | marker name condition subs rest ihs ihr =>
    rw [HasBodies] at h
    rw [replaced]
    split
    · rw [HasBodies]
      exact ihr _ h.2.2
    · split
      · exact hasBodies_append.mpr ⟨ihs _ h.2.1, ihr _ h.2.2⟩
      · rw [HasBodies]
        exact ⟨replaced_ne_nil _ _ h.2.1 h.1, ihs _ h.2.1, ihr _ h.2.2⟩

/-- Replacing markers brings in no fields. -/
theorem mem_allFields_replaced {lifted : Lifted} {parent : String} {selections : List Selection}
    {f : Field} (h : f ∈ allFields (replaced lifted parent selections)) :
    f ∈ allFields selections := by
  induction selections using listInduction generalizing parent with
  | nil => simp [replaced, allFields] at h
  | field g subs rest ihs ihr =>
    simp only [replaced, allFields, List.mem_cons, List.mem_append] at h ⊢
    exact h.imp_right (Or.imp ihs ihr)
  | spread name condition rest ihr =>
    simp only [replaced, allFields] at h ⊢
    exact ihr h
  | inline condition subs rest ihs ihr =>
    simp only [replaced, allFields, List.mem_append] at h ⊢
    exact h.imp ihs ihr
  | marker name condition subs rest ihs ihr =>
    simp only [allFields, List.mem_append]
    rw [replaced] at h
    split at h
    · rw [allFields] at h
      exact Or.inr (ihr h)
    · split at h
      · rw [allFields_append, List.mem_append] at h
        exact h.imp ihs ihr
      · rw [allFields, List.mem_append] at h
        exact h.imp ihs ihr

theorem allMarkers_append (as bs : List Selection) :
    allMarkers (as ++ bs) = allMarkers as ++ allMarkers bs := by
  induction as with
  | nil => simp [allMarkers]
  | cons a as ih => cases a <;> simp [allMarkers, ih]

/-- No marker is left. -/
theorem allMarkers_replaced (lifted : Lifted) (parent : String) (selections : List Selection) :
    allMarkers (replaced lifted parent selections) = [] := by
  induction selections using listInduction generalizing parent with
  | nil => simp [replaced, allMarkers]
  | field f subs rest ihs ihr => simp [replaced, allMarkers, ihs, ihr]
  | spread name condition rest ihr => simp [replaced, allMarkers, ihr]
  | inline condition subs rest ihs ihr => simp [replaced, allMarkers, ihs, ihr]
  | marker name condition subs rest ihs ihr =>
    rw [replaced]
    split
    · rw [allMarkers, ihr]
    · split
      · rw [allMarkers_append, ihs, ihr, List.append_nil]
      · rw [allMarkers, ihs, ihr, List.append_nil]

/-- A spread that is written stands for a marker of the list, if the list had no spreads. -/
theorem mem_allSpreads_replaced {lifted : Lifted} {parent : String} {selections : List Selection}
    (hs : allSpreads selections = []) {x : String × String}
    (h : x ∈ allSpreads (replaced lifted parent selections)) :
    ∃ m ∈ allMarkers selections,
      lifted.name? (markerKey m) = some x.1 ∧ m.typeCondition = x.2 := by
  induction selections using listInduction generalizing parent with
  | nil => simp [replaced, allSpreads] at h
  | field f subs rest ihs ihr =>
    simp only [allSpreads, List.append_eq_nil_iff] at hs
    simp only [replaced, allSpreads, List.mem_append] at h
    simp only [allMarkers, List.mem_append]
    rcases h with h | h
    · obtain ⟨m, hm, h⟩ := ihs hs.1 h
      exact ⟨m, Or.inl hm, h⟩
    · obtain ⟨m, hm, h⟩ := ihr hs.2 h
      exact ⟨m, Or.inr hm, h⟩
  | spread name condition rest ihr => simp [allSpreads] at hs
  | inline condition subs rest ihs ihr =>
    simp only [allSpreads, List.append_eq_nil_iff] at hs
    simp only [replaced, allSpreads, List.mem_append] at h
    simp only [allMarkers, List.mem_append]
    rcases h with h | h
    · obtain ⟨m, hm, h⟩ := ihs hs.1 h
      exact ⟨m, Or.inl hm, h⟩
    · obtain ⟨m, hm, h⟩ := ihr hs.2 h
      exact ⟨m, Or.inr hm, h⟩
  | marker name condition subs rest ihs ihr =>
    simp only [allSpreads, List.append_eq_nil_iff] at hs
    simp only [allMarkers, List.mem_cons, List.mem_append]
    rw [replaced] at h
    cases hl : lifted.name? (groupKey name condition subs) with
    | some fragment =>
      simp only [hl, allSpreads, List.mem_cons] at h
      rcases h with rfl | h
      · exact ⟨⟨name, condition, subs⟩, Or.inl rfl, hl, rfl⟩
      · obtain ⟨m, hm, h⟩ := ihr hs.2 h
        exact ⟨m, Or.inr (Or.inr hm), h⟩
    | none =>
      have hx : x ∈ allSpreads (replaced lifted condition subs) ∨
          x ∈ allSpreads (replaced lifted parent rest) := by
        rw [hl] at h
        dsimp only at h
        split at h
        · rwa [allSpreads_append, List.mem_append] at h
        · rwa [allSpreads, List.mem_append] at h
      rcases hx with h | h
      · obtain ⟨m, hm, h⟩ := ihs hs.1 h
        exact ⟨m, Or.inr (Or.inl hm), h⟩
      · obtain ⟨m, hm, h⟩ := ihr hs.2 h
        exact ⟨m, Or.inr (Or.inr hm), h⟩

/-! ## The definitions -/

/-- Whether every spread of a list names a definition, finished or not. -/
def Covered (definitions : Definitions) (selections : List Selection) : Prop :=
  ∀ x ∈ allSpreads selections, definitions.contains x.1 = true

/-- The content of a definition that some marker is lifted to. -/
def Lifts (lifted : Lifted) (markers : List Marker) (d : FragmentDefinition) : Prop :=
  ∃ m ∈ markers, lifted.name? (markerKey m) = some d.name ∧ d.typeCondition = m.typeCondition ∧
    d.selections = replaced lifted m.typeCondition m.selections

/-- The definition of a lifted marker holds none. -/
theorem Lifts.noMarkers {lifted : Lifted} {markers : List Marker} {d : FragmentDefinition}
    (h : Lifts lifted markers d) : allMarkers d.selections = [] := by
  obtain ⟨m, -, -, -, hselections⟩ := h
  rw [hselections, allMarkers_replaced]

/-- A definition is called by the explicit name of a marker, or after the type of one. -/
theorem Lifts.name_cases {lifted : Lifted} {selections : List Selection}
    (hn : nameGroups [] (countMarkers [] selections) = .ok lifted) {d : FragmentDefinition}
    (h : Lifts lifted (allMarkers selections) d) :
    ∃ m ∈ allMarkers selections,
      m.name = some d.name ∨ ∃ fingerprint, d.name = derivedName m.typeCondition fingerprint := by
  obtain ⟨_, -, hname, -, -⟩ := h
  rcases exists_group_of_mem_nameGroups hn (mem_of_lookup hname) with hnone | ⟨g, hg, hp⟩
  · cases hnone
  obtain ⟨m, hm, hkey, htype⟩ := ofMarkers_countMarkers (by simp) (fun _ hm => hm) g hg
  have hd : d.name = g.definitionName := congrArg Prod.snd hp
  refine ⟨m, hm, ?_⟩
  have hgroup : g.key.name = m.name := by
    rw [hkey]
    rfl
  rw [hd, Group.definitionName, hgroup, htype]
  cases m.name with
  | none => exact Or.inr ⟨_, rfl⟩
  | some n => exact Or.inl rfl

/-- How definitions grow: what is there stays, and what is added is finished, holds the content
    of a marker, and spreads only what is there in the end. -/
structure Extends (lifted : Lifted) (markers : List Marker) (before after : Definitions) :
    Prop where
  kept : ∀ name, before.contains name = true → after.get? name = before.get? name
  added : ∀ name, before.contains name = false → after.contains name = true →
    ∃ d : FragmentDefinition, after.get? name = some (some d) ∧ d.name = name ∧
      Lifts lifted markers d ∧ Covered after d.selections
  nodup : before.keys.Nodup → after.keys.Nodup

namespace Extends

variable {lifted : Lifted} {markers : List Marker} {before middle after : Definitions}

theorem contains (h : Extends lifted markers before after) {name : String}
    (hn : before.contains name = true) : after.contains name = true := by
  unfold Entries.contains
  rw [h.kept name hn]
  exact hn

theorem covered (h : Extends lifted markers before after) {selections : List Selection}
    (hc : Covered before selections) : Covered after selections :=
  fun x hx => h.contains (hc x hx)

theorem refl (lifted : Lifted) (markers : List Marker) (definitions : Definitions) :
    Extends lifted markers definitions definitions where
  kept := fun _ _ => rfl
  added := fun name h h' => by simp [h] at h'
  nodup := id

theorem trans (h₁ : Extends lifted markers before middle)
    (h₂ : Extends lifted markers middle after) : Extends lifted markers before after where
  kept := fun name hn => (h₂.kept name (h₁.contains hn)).trans (h₁.kept name hn)
  added := by
    intro name hn hn'
    cases hm : middle.contains name with
    | false => exact h₂.added name hm hn'
    | true =>
      obtain ⟨d, hd, hname, hl, hc⟩ := h₁.added name hn hm
      exact ⟨d, (h₂.kept name hm).trans hd, hname, hl, h₂.covered hc⟩
  nodup := fun hn => h₂.nodup (h₁.nodup hn)

/-- A definition is added when its content is done: its place is taken first, the content is
    written, and then the place is filled. -/
theorem fill {d : FragmentDefinition} (hfree : before.contains d.name = false)
    (h : Extends lifted markers (before.insert d.name none) middle)
    (hl : Lifts lifted markers d) (hc : Covered middle d.selections) :
    Extends lifted markers before (middle.insert d.name (some d)) := by
  have hne : ∀ {name : String}, before.contains name = true → name ≠ d.name := by
    rintro name hn rfl
    simp [hfree] at hn
  have hplace : ∀ {name : String}, name ≠ d.name → before.contains name = true →
      (before.insert d.name none).contains name = true := by
    intro name _ hn
    rw [Entries.contains_insert, hn, Bool.or_true]
  have hcov : ∀ {selections : List Selection}, Covered middle selections →
      Covered (middle.insert d.name (some d)) selections := by
    intro selections hs x hx
    rw [Entries.contains_insert, hs x hx, Bool.or_true]
  refine ⟨?_, ?_, ?_⟩
  · intro name hn
    rw [Entries.get?_insert_of_ne _ _ (hne hn), h.kept name (hplace (hne hn) hn),
      Entries.get?_insert_of_ne _ _ (hne hn)]
  · intro name hn hn'
    by_cases hname : name = d.name
    · subst hname
      exact ⟨d, Entries.get?_insert_self _ _ _, rfl, hl, hcov hc⟩
    · have hb : (before.insert d.name none).contains name = false := by
        rw [Entries.contains_insert, hn, Bool.or_false]
        exact beq_false_of_ne (Ne.symm hname)
      have hm : middle.contains name = true := by
        rw [Entries.contains_insert] at hn'
        rcases Bool.or_eq_true_iff.mp hn' with hn' | hn'
        · exact absurd (beq_iff_eq.mp hn').symm hname
        · exact hn'
      obtain ⟨e, he, hename, hle, hce⟩ := h.added name hb hm
      exact ⟨e, (Entries.get?_insert_of_ne _ _ hname).trans he, hename, hle, hcov hce⟩
  · intro hn
    exact Entries.nodup_keys_insert (h.nodup (Entries.nodup_keys_insert hn _ _)) _ _

end Extends

theorem covered_append {definitions : Definitions} {as bs : List Selection}
    (ha : Covered definitions as) (hb : Covered definitions bs) :
    Covered definitions (as ++ bs) := by
  intro x hx
  rw [allSpreads_append, List.mem_append] at hx
  exact hx.elim (ha x) (hb x)

/-- Replacing the markers of a list extends the definitions so that they cover what is written. -/
theorem replaceMarkers_extends (lifted : Lifted) (markers : List Marker) (parent : String)
    (definitions : Definitions) {selections : List Selection}
    (hm : ∀ m ∈ allMarkers selections, m ∈ markers) (hs : allSpreads selections = []) :
    Extends lifted markers definitions (replaceMarkers lifted parent definitions selections).2 ∧
      Covered (replaceMarkers lifted parent definitions selections).2
        (replaced lifted parent selections) := by
  induction selections using listInduction generalizing parent definitions with
  | nil =>
    rw [replaceMarkers, replaced]
    exact ⟨.refl _ _ _, fun x hx => by simp [allSpreads] at hx⟩
  | field f subs rest ihs ihr =>
    simp only [allMarkers, List.mem_append] at hm
    simp only [allSpreads, List.append_eq_nil_iff] at hs
    rw [replaceMarkers, replaced]
    obtain ⟨he, hc⟩ := ihs f.type.innerName definitions (fun m h => hm m (Or.inl h)) hs.1
    obtain ⟨he', hc'⟩ := ihr parent _ (fun m h => hm m (Or.inr h)) hs.2
    refine ⟨he.trans he', fun x hx => ?_⟩
    simp only [allSpreads, List.mem_append] at hx
    exact hx.elim (he'.covered hc x) (hc' x)
  | spread name condition rest ihr => simp [allSpreads] at hs
  | inline condition subs rest ihs ihr =>
    simp only [allMarkers, List.mem_append] at hm
    simp only [allSpreads, List.append_eq_nil_iff] at hs
    rw [replaceMarkers, replaced]
    obtain ⟨he, hc⟩ := ihs condition definitions (fun m h => hm m (Or.inl h)) hs.1
    obtain ⟨he', hc'⟩ := ihr parent _ (fun m h => hm m (Or.inr h)) hs.2
    refine ⟨he.trans he', fun x hx => ?_⟩
    simp only [allSpreads, List.mem_append] at hx
    exact hx.elim (he'.covered hc x) (hc' x)
  | marker name condition subs rest ihs ihr =>
    simp only [allMarkers, List.mem_cons, List.mem_append] at hm
    simp only [allSpreads, List.append_eq_nil_iff] at hs
    have hself := hm ⟨name, condition, subs⟩ (Or.inl rfl)
    have ihs := fun defs => ihs condition defs (fun m h => hm m (Or.inr (Or.inl h))) hs.1
    have ihr := fun defs => ihr parent defs (fun m h => hm m (Or.inr (Or.inr h))) hs.2
    rw [replaceMarkers, replaced]
    cases hl : lifted.name? (groupKey name condition subs) with
    | none =>
      obtain ⟨he, hc⟩ := ihs definitions
      obtain ⟨he', hc'⟩ := ihr (replaceMarkers lifted condition definitions subs).2
      dsimp only
      refine ⟨he.trans he', ?_⟩
      split
      · exact covered_append (he'.covered hc) hc'
      · intro x hx
        simp only [allSpreads, List.mem_append] at hx
        exact hx.elim (he'.covered hc x) (hc' x)
    | some fragment =>
      dsimp only
      cases hfree : definitions.contains fragment with
      | true =>
        obtain ⟨he, hc⟩ := ihr definitions
        refine ⟨he, fun x hx => ?_⟩
        simp only [allSpreads, List.mem_cons] at hx
        rcases hx with rfl | hx
        · exact he.contains hfree
        · exact hc x hx
      | false =>
        obtain ⟨he, hc⟩ := ihs (definitions.insert fragment none)
        rw [← replaceMarkers_fst lifted condition (definitions.insert fragment none)] at hc
        have hfill := Extends.fill (d := ⟨fragment, condition, _⟩) hfree he
          ⟨_, hself, hl, rfl, replaceMarkers_fst _ _ _ _⟩ hc
        obtain ⟨he', hc'⟩ := ihr _
        refine ⟨hfill.trans he', fun x hx => ?_⟩
        simp only [allSpreads, List.mem_cons] at hx
        rcases hx with rfl | hx
        · refine he'.contains ?_
          rw [Entries.contains_insert, beq_self_eq_true, Bool.true_or]
        · exact hc' x hx

/-! ## The result -/

/-- Finished definitions are found under their names. -/
theorem find?_values {definitions : Definitions}
    (h : ∀ p ∈ definitions, ∃ d : FragmentDefinition, p.2 = some d ∧ d.name = p.1)
    (name : String) :
    find? (definitions.values.filterMap (·)) name = (definitions.get? name).join := by
  induction definitions with
  | nil => rfl
  | cons p rest ih =>
    obtain ⟨k, o⟩ := p
    obtain ⟨d, ho, hk⟩ := h (k, o) List.mem_cons_self
    dsimp only at ho hk
    subst ho hk
    have ih := ih fun p hp => h p (List.mem_cons_of_mem _ hp)
    unfold find? Entries.values at ih ⊢
    rw [List.map_cons, List.filterMap_cons, List.find?_cons, ih, Entries.get?_cons]
    by_cases hn : d.name = name <;> simp [hn]

/-- What extraction makes of an operation whose tree has no spreads: distinct names for the lifted
    groups, one definition for each name that is spread, and no spread without a definition. -/
structure Extracted (set : SelectionSet) (lifted : Lifted) (fragments : List FragmentDefinition) :
    Prop where
  names : (lifted.map Prod.snd).Nodup
  lifts : ∀ d ∈ fragments, Lifts lifted (allMarkers set.selections) d
  found : ∀ d ∈ fragments, find? fragments d.name = some d
  resolves : Resolves fragments (replaced lifted set.rootType set.selections)
  bodies : ∀ d ∈ fragments, Resolves fragments d.selections

/-- An extraction that succeeds, with the names of its groups. -/
theorem extract_named {set set' : SelectionSet} {fragments : List FragmentDefinition}
    (h : extract set = .ok (set', fragments)) (hs : allSpreads set.selections = []) :
    ∃ lifted, nameGroups [] (countMarkers [] set.selections) = .ok lifted ∧
      set' = { set with selections := replaced lifted set.rootType set.selections } ∧
      Extracted set lifted fragments := by
  unfold extract at h
  simp only [bind_eq_ok, pure_eq_ok, Prod.mk.injEq] at h
  obtain ⟨lifted, hnames, rfl, rfl⟩ := h
  rw [replaceMarkers_fst]
  obtain ⟨hext, hcov⟩ := replaceMarkers_extends lifted (allMarkers set.selections) set.rootType []
    (fun _ h => h) hs
  have hnodup := hext.nodup List.nodup_nil
  generalize (replaceMarkers lifted set.rootType [] set.selections).2 = definitions
    at hext hcov hnodup ⊢
  have hall : ∀ p ∈ definitions, ∃ d : FragmentDefinition, p.2 = some d ∧ d.name = p.1 ∧
      Lifts lifted (allMarkers set.selections) d ∧ Covered definitions d.selections := by
    intro p hp
    have hget := Entries.get?_of_mem hnodup hp
    obtain ⟨d, hd, hname, hl, hc⟩ := hext.added p.1 rfl (by simp [Entries.contains, hget])
    exact ⟨d, Option.some.inj (hget.symm.trans hd), hname, hl, hc⟩
  have hfind : ∀ name, find? (definitions.values.filterMap (·)) name =
      (definitions.get? name).join := find?_values fun p hp =>
    let ⟨d, hd, hname, _⟩ := hall p hp
    ⟨d, hd, hname⟩
  have hmem : ∀ d ∈ definitions.values.filterMap (·), (d.name, some d) ∈ definitions := by
    intro d hd
    obtain ⟨o, ho, rfl⟩ := List.mem_filterMap.mp hd
    obtain ⟨p, hp, ho⟩ := List.mem_map.mp ho
    obtain ⟨d', hd', hname, -⟩ := hall p hp
    rw [hd'] at ho
    cases ho
    rw [hname, ← hd']
    exact hp
  have hresolves : ∀ {selections : List Selection}, Covered definitions selections →
      Resolves (definitions.values.filterMap (·)) selections := by
    intro selections hc x hx
    obtain ⟨o, ho⟩ := Option.isSome_iff_exists.mp (hc x hx)
    obtain ⟨d, hd, -⟩ := hall _ (Entries.mem_of_get? ho)
    dsimp only at hd
    rw [hfind, ho, hd]
    rfl
  refine ⟨lifted, hnames, rfl, nodup_nameGroups hnames List.nodup_nil, ?_, ?_, hresolves hcov, ?_⟩
  · intro d hd
    obtain ⟨d', hd', -, hl, -⟩ := hall _ (hmem d hd)
    cases hd'
    exact hl
  · intro d hd
    rw [hfind, Entries.get?_of_mem hnodup (hmem d hd)]
    rfl
  · intro d hd
    obtain ⟨d', hd', -, -, hc⟩ := hall _ (hmem d hd)
    cases hd'
    exact hresolves hc

theorem extract_eq_ok {set set' : SelectionSet} {fragments : List FragmentDefinition}
    (h : extract set = .ok (set', fragments)) (hs : allSpreads set.selections = []) :
    ∃ lifted, set' = { set with selections := replaced lifted set.rootType set.selections } ∧
      Extracted set lifted fragments := by
  obtain ⟨lifted, -, hset, he⟩ := extract_named h hs
  exact ⟨lifted, hset, he⟩

end QueryShapes.Extraction
