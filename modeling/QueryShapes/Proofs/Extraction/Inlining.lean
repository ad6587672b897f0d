/-
  Extraction keeps what is selected.

  As long as different fragment contents have different digests, a definition
  stands for markers of one content only, and contents get smaller along spreads,
  so the definitions are acyclic (`Extracted.acyclic`).  No marker is left in the
  result, and putting its spreads back gives the tree that putting the markers of
  the input back gives (`putBack_extract`).
-/
import QueryShapes.Proofs.Analysis.Arguments
import QueryShapes.Proofs.Extraction.Definitions

namespace QueryShapes.Extraction

open Selection Fragments

/-! ## What a definition stands for -/

theorem nodes_lt_of_mem_allMarkers {m : Marker} {selections : List Selection}
    (h : m ∈ allMarkers selections) :
    Analysis.nodes m.selections < Analysis.nodes selections := by
  induction selections using listInduction with
  | nil => simp [allMarkers] at h
  | field f subs rest ihs ihr =>
    simp only [allMarkers, List.mem_append] at h
    rw [Analysis.nodes]
    rcases h with h | h
    · have := ihs h
      omega
    · have := ihr h
      omega
  | spread name condition rest ihr =>
    rw [allMarkers] at h
    rw [Analysis.nodes]
    have := ihr h
    omega
  | inline condition subs rest ihs ihr =>
    simp only [allMarkers, List.mem_append] at h
    rw [Analysis.nodes]
    rcases h with h | h
    · have := ihs h
      omega
    · have := ihr h
      omega
  | marker name condition subs rest ihs ihr =>
    simp only [allMarkers, List.mem_cons, List.mem_append] at h
    rw [Analysis.nodes]
    rcases h with rfl | h | h
    · dsimp only
      omega
    · have := ihs h
      omega
    · have := ihr h
      omega

namespace Extracted

variable {set : SelectionSet} {lifted : Lifted} {fragments : List FragmentDefinition}

/-- Markers lifted under one name have one content. -/
theorem content_eq (he : Extracted set lifted fragments)
    (hd : DistinctFingerprints set.selections) {m m' : Marker}
    (hm : m ∈ allMarkers set.selections) (hm' : m' ∈ allMarkers set.selections) {name : String}
    (h : lifted.name? (markerKey m) = some name) (h' : lifted.name? (markerKey m') = some name) :
    m.typeCondition = m'.typeCondition ∧ m.selections = m'.selections :=
  hd m hm m' hm' (congrArg GroupKey.fingerprint (key_eq_of_name? he.names h h'))

/-- The definition that a lifted marker is replaced by holds the marker's own content. -/
theorem find?_of_lifted (he : Extracted set lifted fragments)
    (hd : DistinctFingerprints set.selections) {m : Marker} (hm : m ∈ allMarkers set.selections)
    {name : String} (h : lifted.name? (markerKey m) = some name)
    (hdef : (find? fragments name).isSome) :
    find? fragments name =
      some ⟨name, m.typeCondition, replaced lifted m.typeCondition m.selections⟩ := by
  obtain ⟨d, hfind⟩ := Option.isSome_iff_exists.mp hdef
  obtain ⟨m', hm', hname, hc, hs⟩ := he.lifts d (mem_of_find? hfind)
  have hdname := name_of_find? hfind
  rw [hdname] at hname
  obtain ⟨hcond, hsel⟩ := he.content_eq hd hm hm' h hname
  rw [hfind, hcond, hsel, ← hc, ← hdname]
  cases d
  simp_all

/-- Definitions do not spread each other in a circle, for the contents of markers get smaller
    along spreads. -/
theorem acyclic (he : Extracted set lifted fragments) (hd : DistinctFingerprints set.selections)
    (hs : allSpreads set.selections = []) : Acyclic fragments := by
  -- how large the content of a name is, whichever of its markers one looks at
  let size (name : String) : Nat :=
    match (allMarkers set.selections).find? fun m => lifted.name? (markerKey m) = some name with
    | some m => Analysis.nodes m.selections
    | none => 0
  have hsize : ∀ {m : Marker} {name : String}, m ∈ allMarkers set.selections →
      lifted.name? (markerKey m) = some name → size name = Analysis.nodes m.selections := by
    intro m name hm h
    dsimp only [size]
    split
    · rename_i m' hfind
      have h' : lifted.name? (markerKey m') = some name := by simpa using List.find?_some hfind
      rw [(he.content_eq hd hm (List.mem_of_find?_eq_some hfind) h h').2]
    · rename_i hnone
      have := List.find?_eq_none.mp hnone m hm
      simp [h] at this
  refine acyclic_of_rank size fun a b hab => ?_
  obtain ⟨d, hfind, condition, hb⟩ := hab
  obtain ⟨m, hm, hname, -, hsel⟩ := he.lifts d (mem_of_find? hfind)
  rw [name_of_find? hfind] at hname
  rw [hsel] at hb
  have hwithin := within_of_mem_allMarkers hm
  have hnone : allSpreads m.selections = [] :=
    List.eq_nil_iff_forall_not_mem.mpr fun x hx => by simpa [hs] using hwithin.spreads x hx
  obtain ⟨m', hm', hname', -⟩ := mem_allSpreads_replaced hnone hb
  rw [hsize hm hname, hsize (hwithin.markers m' hm') hname']
  exact nodes_lt_of_mem_allMarkers hm'

/-- Putting back the spreads of what extraction wrote for a part of the tree gives what putting
    back the part's markers gives. -/
theorem inline_expand_replaced (he : Extracted set lifted fragments)
    (hd : DistinctFingerprints set.selections) (hs : allSpreads set.selections = [])
    {selections : List Selection} (hw : Within selections set.selections) (parent : String)
    (hr : Resolves fragments (replaced lifted parent selections)) :
    inlineMarkers parent (expand fragments (replaced lifted parent selections)) =
      inlineMarkers parent selections := by
  induction selections using listInduction generalizing parent with
  | nil => simp [replaced]
  | field f subs rest ihs ihr =>
    rw [replaced] at hr ⊢
    rw [expand_field, inlineMarkers, inlineMarkers,
      ihs ((within_children_cons (.field f subs) rest).trans hw) _
        (hr.children (s := .field f _) List.mem_cons_self),
      ihr ((within_tail _ rest).trans hw) parent hr.tail]
  | spread name condition rest ihr =>
    have := hw.spreads (name, condition) (by simp [allSpreads])
    simp [hs] at this
  | inline condition subs rest ihs ihr =>
    rw [replaced] at hr ⊢
    rw [expand_inline, inlineMarkers, inlineMarkers,
      ihs ((within_children_cons (.inline condition subs) rest).trans hw) _
        (hr.children (s := .inline condition _) List.mem_cons_self),
      ihr ((within_tail _ rest).trans hw) parent hr.tail]
  | marker name condition subs rest ihs ihr =>
    have ihs := ihs ((within_children_cons (.marker name condition subs) rest).trans hw) condition
    have ihr := ihr ((within_tail _ rest).trans hw) parent
    have hm := hw.markers ⟨name, condition, subs⟩ (by simp [allMarkers])
    rw [replaced] at hr ⊢
    cases hl : lifted.name? (groupKey name condition subs) with
    | some fragment =>
      simp only [hl] at hr ⊢
      -- the definition may be written from another marker, but its content is this one's
      have hfind := he.find?_of_lifted hd hm hl (hr (fragment, condition) (by simp [allSpreads]))
      have hbody := he.bodies _ (mem_of_find? hfind)
      rw [expand_spread (he.acyclic hd hs) hfind, inlineMarkers, inlineMarkers, ihs hbody,
        ihr hr.tail]
    | none =>
      simp only [hl] at hr ⊢
      by_cases hc : condition = parent
      · rw [if_pos hc] at hr ⊢
        have hr := resolves_append.mp hr
        rw [expand_append, inlineMarkers_append, inlineMarkers, if_pos hc, ihr hr.2, ← hc,
          ihs hr.1]
      · rw [if_neg hc] at hr ⊢
        rw [expand_inline, inlineMarkers, inlineMarkers, if_neg hc,
          ihs (hr.children (s := .inline condition _) List.mem_cons_self),
          ihr hr.tail]

/-- Every spread of what extraction wrote for a part of the tree has a definition on the type that
    the spread tells. -/
theorem condition_of_spread (he : Extracted set lifted fragments)
    (hd : DistinctFingerprints set.selections) (hs : allSpreads set.selections = [])
    {selections : List Selection} (hw : Within selections set.selections) {parent : String}
    (hr : Resolves fragments (replaced lifted parent selections)) {x : String × String}
    (hx : x ∈ allSpreads (replaced lifted parent selections)) :
    ∃ d, find? fragments x.1 = some d ∧ d.typeCondition = x.2 := by
  have hnone : allSpreads selections = [] :=
    List.eq_nil_iff_forall_not_mem.mpr fun y hy => by simpa [hs] using hw.spreads y hy
  obtain ⟨m, hm, hname, hc⟩ := mem_allSpreads_replaced hnone hx
  exact ⟨_, he.find?_of_lifted hd (hw.markers m hm) hname (hr x hx), hc⟩

/-- Every spread of an extracted operation and of its fragments has a definition on the type that
    the spread tells. -/
theorem conditions (he : Extracted set lifted fragments) (hd : DistinctFingerprints set.selections)
    (hs : allSpreads set.selections = []) :
    ∀ x ∈ allSpreads (replaced lifted set.rootType set.selections) ++
        fragments.flatMap fun d => allSpreads d.selections,
      ∃ d, find? fragments x.1 = some d ∧ d.typeCondition = x.2 := by
  intro x hx
  rcases List.mem_append.mp hx with hx | hx
  · exact he.condition_of_spread hd hs (Within.refl set.selections) he.resolves hx
  · obtain ⟨d, hdef, hx⟩ := List.mem_flatMap.mp hx
    obtain ⟨m, hm, -, -, hsel⟩ := he.lifts d hdef
    have hr := he.bodies d hdef
    rw [hsel] at hx hr
    exact he.condition_of_spread hd hs (within_of_mem_allMarkers hm) hr hx

end Extracted

/-! ## The whole operation -/

/-- Extraction leaves no marker, neither in the operation nor in a definition, so only spreads are
    there to be put back; putting all of them back gives the analyzed tree with its markers put
    back.  So extraction changes what is written, and nothing that is selected.  Each spread tells
    the type condition of its definition, and nothing else of the operation changes. -/
theorem putBack_extract {schema : Schema} {shape : OperationShape} {limit : Nat}
    {set set' : SelectionSet} {fragments : List FragmentDefinition}
    (ha : Analysis.analyze schema shape limit = .ok set)
    (hd : DistinctFingerprints set.selections) (hx : extract set = .ok (set', fragments)) :
    (allMarkers set'.selections = [] ∧ ∀ d ∈ fragments, allMarkers d.selections = []) ∧
      putBack fragments set'.rootType set'.selections =
        inlineMarkers set.rootType set.selections ∧
      (∀ x ∈ allSpreads set'.selections ++ fragments.flatMap fun d => allSpreads d.selections,
        ∃ d, find? fragments x.1 = some d ∧ d.typeCondition = x.2) ∧
      set'.kind = set.kind ∧ set'.operationName = set.operationName ∧
      set'.rootType = set.rootType := by
  have hs := (Analysis.analyze_faithful ha).noSpreads
  obtain ⟨lifted, rfl, he⟩ := extract_eq_ok hx hs
  refine ⟨⟨?_, ?_⟩, ?_, ?_, rfl, rfl, rfl⟩
  · exact allMarkers_replaced lifted set.rootType set.selections
  · intro d hdef
    exact (he.lifts d hdef).noMarkers
  · exact he.inline_expand_replaced hd hs (Within.refl set.selections) _ he.resolves
  · exact he.conditions hd hs

/-! ## A hero asked for twice -/

/-- A schema with a hero that is asked for by its identifier. -/
def heroSchema : Schema :=
  ⟨"Query", none, [
    ("Query", .object ⟨"Query", [],
      [("hero", ⟨"hero", .named "Hero", [⟨"id", .nonNull .id, none⟩]⟩)]⟩),
    ("Hero", .object ⟨"Hero", [], [("name", ⟨"name", .string, []⟩)]⟩)]⟩

def heroMember : Member :=
  .reusing { name := "hero", named := [("id", .parameter "id")] } ⟨some "heroFields", "Hero"⟩
    [.leaf { name := "name" }]

/-- The same hero asked for twice, through one fragment and under one response key. -/
def heroShape : OperationShape where
  kind := .query
  parameters := ["id"]
  members := [heroMember, .narrowed "Query" [heroMember]]

def heroField (value : ArgumentValue) : Field :=
  ⟨"hero", none, "Query", .named "Hero", [⟨"id", .nonNull .id, value, none⟩], false⟩

def heroContent : List Selection := [.field ⟨"name", none, "Hero", .string, [], false⟩ []]

/-- The operation of the hero shape, with what stands below the two fields and the values of their
    arguments. -/
def heroOperation (subs : List Selection) (first second : ArgumentValue) : SelectionSet :=
  ⟨.query, none, "Query", [.field (heroField first) subs,
    .inline "Query" [.field (heroField second) subs]]⟩

/-- The analyzed hero shape. -/
def heroAnalyzed : SelectionSet :=
  heroOperation [.marker (some "heroFields") "Hero" heroContent] (.parameter "id")
    (.parameter "id")

theorem analyze_hero : Analysis.analyze heroSchema heroShape 512 = .ok heroAnalyzed := by
  cbv

theorem distinctFingerprints_hero : DistinctFingerprints heroAnalyzed.selections := by
  intro m hm m' hm' _
  simp only [heroAnalyzed, heroOperation, heroContent, allMarkers, List.append_nil,
    List.mem_append, List.mem_singleton, or_self] at hm hm'
  rw [hm, hm']
  exact ⟨rfl, rfl⟩

theorem extract_hero : extract heroAnalyzed =
    .ok (heroOperation [.spread "heroFields" "Hero"] (.parameter "id") (.parameter "id"),
      [⟨"heroFields", "Hero", heroContent⟩]) := by
  simp [extract, heroAnalyzed, heroOperation, heroContent, countMarkers, recount, groupKey,
    nameGroups, Group.isLifted, Group.definitionName, replaceMarkers, Lifted.name?,
    Entries.contains, Entries.insert, Entries.get?, Entries.values]

/-- The two uses of the hero's fragment are one definition, and putting it back gives both. -/
theorem putBack_extract_hero :
    Analysis.analyze heroSchema heroShape 512 = .ok heroAnalyzed ∧
      DistinctFingerprints heroAnalyzed.selections ∧
      extract heroAnalyzed =
        .ok (heroOperation [.spread "heroFields" "Hero"] (.parameter "id") (.parameter "id"),
          [⟨"heroFields", "Hero", heroContent⟩]) ∧
      putBack [⟨"heroFields", "Hero", heroContent⟩] "Query"
          (heroOperation [.spread "heroFields" "Hero"] (.parameter "id")
            (.parameter "id")).selections =
        inlineMarkers "Query" heroAnalyzed.selections :=
  ⟨analyze_hero, distinctFingerprints_hero, extract_hero,
    (putBack_extract analyze_hero distinctFingerprints_hero extract_hero).2.1⟩

end QueryShapes.Extraction
