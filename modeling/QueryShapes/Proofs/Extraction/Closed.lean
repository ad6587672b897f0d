/-
  What extraction writes is closed.

  No marker is left in an extracted operation, every spread has its definition,
  every definition its spreads, and none is in itself (`extract_closed`).  The
  definitions are those of the lifted markers, and only a clash of two names makes
  extraction fail.
-/
import QueryShapes.Proofs.Extraction.Inlining
import QueryShapes.Proofs.Extraction.Written

namespace QueryShapes.Extraction

open Selection Fragments

/-! ## The written document -/

/-- The spreads of a written operation and of its fragments. -/
def documentSpreads (written : List Selection) (fragments : List FragmentDefinition) :
    List (String × String) :=
  allSpreads written ++ fragments.flatMap fun d => allSpreads d.selections

/-- How many places of a document spread the fragment of a name. -/
def spreadCount (written : List Selection) (fragments : List FragmentDefinition)
    (name : String) : Nat :=
  ((documentSpreads written fragments).map Prod.fst).count name

/-- What an operation is written to, and its fragments, are closed: no marker is left, the names of
    the definitions are different, and they are just those of the lifted markers.  Every spread has
    a definition of its type, every definition is reached from the operation, is spread, and twice
    unless its marker has a name, and does not reach itself.  The definitions stand in the order in
    which a reader comes to them. -/
structure Closed (selections written : List Selection) (fragments : List FragmentDefinition) :
    Prop where
  noMarkers : allMarkers written = [] ∧ ∀ d ∈ fragments, allMarkers d.selections = []
  names : (fragments.map (·.name)).Nodup
  defined : ∀ m ∈ allMarkers selections, IsLifted selections m →
    ∃ d ∈ fragments, d.name = definitionName m ∧ d.typeCondition = m.typeCondition
  conditions : ∀ x ∈ documentSpreads written fragments,
    ∃ d ∈ fragments, d.name = x.1 ∧ d.typeCondition = x.2
  reached : ∀ d ∈ fragments, Reaches fragments written d.name
  used : ∀ d ∈ fragments, ∃ m ∈ allMarkers selections, IsLifted selections m ∧
    definitionName m = d.name ∧ m.typeCondition = d.typeCondition ∧
    1 ≤ spreadCount written fragments d.name ∧
    (m.name = none → 2 ≤ spreadCount written fragments d.name)
  acyclic : Acyclic fragments
  order : ∀ names, Visits fragments [] written names ↔ names = fragments.map (·.name)

section Document

variable {set set' : SelectionSet} {fragments : List FragmentDefinition} {new again : List Marker}

/-- With names for its groups, extraction defines the fragments of the lifted markers that the walk
    finds. -/
theorem extract_eq (hd : DistinctFingerprints set.selections)
    (hw : Walk [] set.selections new again)
    (hnames : nameGroups [] (tally new again) = .ok (named (tally new again))) :
    extract set = .ok
      ({ set with selections := replaced (named (tally new again)) set.rootType set.selections },
        definitionsOf (named (tally new again)) new) := by
  have hsnd : (replaceMarkers (named (tally new again)) set.rootType [] set.selections).2 =
      [] ++ entriesOf (named (tally new again)) new :=
    replaceMarkers_snd (namedApart hd hnames) hw (Within.refl _) (by simp)
      (fun m hm => isSome_name?_of_again hd hw hm) rfl set.rootType
  rw [extract, countMarkers_nil hd hw, hnames]
  show Except.ok _ = _
  rw [replaceMarkers_fst, hsnd, List.nil_append, values_entriesOf]

section Succeeds

variable (hd : DistinctFingerprints set.selections) (hw : Walk [] set.selections new again)
  (hs : allSpreads set.selections = []) (h : extract set = .ok (set', fragments))

include hd hw hs h

/-- An extraction that succeeds has names for its groups. -/
theorem extract_eq_ok_of_walk :
    nameGroups [] (tally new again) = .ok (named (tally new again)) ∧
      set'.selections = replaced (named (tally new again)) set.rootType set.selections ∧
      fragments = definitionsOf (named (tally new again)) new ∧
      Extracted set (named (tally new again)) fragments := by
  obtain ⟨lifted, hnames, hset, he⟩ := extract_named h hs
  rw [countMarkers_nil hd hw] at hnames
  have hlifted := nameGroups_eq_ok hnames
  rw [List.nil_append] at hlifted
  subst hlifted
  have heq := h.symm.trans (extract_eq hd hw hnames)
  simp only [Except.ok.injEq, Prod.mk.injEq] at heq
  exact ⟨hnames, congrArg SelectionSet.selections hset, heq.2, he⟩

/-- The definitions are those of the lifted markers. -/
theorem mem_fragments_iff {d : FragmentDefinition} :
    d ∈ fragments ↔ ∃ m ∈ allMarkers set.selections,
      (IsLifted set.selections m ∧ definitionName m = d.name) ∧
        d.typeCondition = m.typeCondition ∧
        d.selections = replaced (named (tally new again)) m.typeCondition m.selections := by
  obtain ⟨-, -, hfragments, -⟩ := extract_eq_ok_of_walk hd hw hs h
  rw [hfragments, mem_definitionsOf_iff, Lifts]
  simp only [← hw.mem_iff]
  refine exists_congr fun m => and_congr_right fun hm => ?_
  rw [name?_named_tally hd hw (hw.mem_iff.mp hm)]

/-- The fragments are spread as often as their markers are met. -/
theorem spreadCount_eq (name : String) :
    spreadCount set'.selections fragments name =
      (liftedNames (named (tally new again)) new).count name +
        (liftedNames (named (tally new again)) again).count name := by
  obtain ⟨-, hset, rfl, -⟩ := extract_eq_ok_of_walk hd hw hs h
  have hperm := spreads_perm hw hs (fun m hm => isSome_name?_of_again hd hw hm) set.rootType
  rw [liftedNames_append] at hperm
  rw [spreadCount, documentSpreads, hset, ← List.count_append]
  exact hperm.count_eq name

/-- The fragment of a lifted marker is spread, and twice if the marker has no name. -/
theorem spreadCount_of_isLifted {m : Marker} (hm : m ∈ allMarkers set.selections)
    (hl : IsLifted set.selections m) :
    1 ≤ spreadCount set'.selections fragments (definitionName m) ∧
      (m.name = none → 2 ≤ spreadCount set'.selections fragments (definitionName m)) := by
  have hname := (name?_named_tally hd hw hm).mpr ⟨hl, rfl⟩
  have hcount : ∀ {markers : List Marker}, m ∈ markers →
      1 ≤ (liftedNames (named (tally new again)) markers).count (definitionName m) :=
    fun hmem => List.count_pos_iff.mpr (List.mem_filterMap.mpr ⟨m, hmem, hname⟩)
  have hnew := hcount (hw.mem_iff.mpr hm)
  rw [spreadCount_eq hd hw hs h]
  refine ⟨by omega, fun hnone => ?_⟩
  have hrepeated : Repeated set.selections m := hl.resolve_left (by simp [hnone])
  have hagain := hcount (hw.mem_again_iff.mpr hrepeated)
  omega

/-- A reader of the written operation comes to the definitions one after the other. -/
theorem visits_written : Visits fragments [] set'.selections (fragments.map (·.name)) := by
  obtain ⟨hnames, hset, hfragments, he⟩ := extract_eq_ok_of_walk hd hw hs h
  have hfind : ∀ m ∈ allMarkers set.selections, ∀ name,
      (named (tally new again)).name? (markerKey m) = some name →
        find? fragments name = some ⟨name, m.typeCondition,
          replaced (named (tally new again)) m.typeCondition m.selections⟩ := by
    intro m hm name hname
    refine he.found ⟨name, _, _⟩ ?_
    rw [mem_fragments_iff hd hw hs h]
    exact ⟨m, hm, (name?_named_tally hd hw hm).mp hname, rfl, rfl⟩
  have hvisits := visits_replaced (namedApart hd hnames) hfind hw (Within.refl _) (by simp) hs
    (fun m hm => isSome_name?_of_again hd hw hm) set.rootType
  rw [hset, hfragments, map_name_definitionsOf, ← hfragments]
  exact hvisits

theorem closed_of_walk : Closed set.selections set'.selections fragments := by
  obtain ⟨-, hset, -, he⟩ := extract_eq_ok_of_walk hd hw hs h
  have hvisits := visits_written hd hw hs h
  have hmem := fun d => mem_fragments_iff hd hw hs h (d := d)
  have hconditions := he.conditions hd hs
  rw [← hset] at hconditions
  constructor
  case noMarkers =>
    exact ⟨hset ▸ allMarkers_replaced _ _ _, fun d hdef => (he.lifts d hdef).noMarkers⟩
  case names => exact hvisits.nodup List.nodup_nil
  case defined =>
    intro m hm hl
    exact ⟨⟨definitionName m, m.typeCondition, _⟩, (hmem _).mpr ⟨m, hm, ⟨hl, rfl⟩, rfl, rfl⟩,
      rfl, rfl⟩
  case conditions =>
    intro x hx
    obtain ⟨d, hfind, htype⟩ := hconditions x hx
    exact ⟨d, mem_of_find? hfind, name_of_find? hfind, htype⟩
  case reached =>
    intro d hdef
    exact (hvisits.reached (List.mem_map_of_mem hdef)).resolve_left List.not_mem_nil
  case used =>
    intro d hdef
    obtain ⟨m, hm, ⟨hl, hname⟩, htype, -⟩ := (hmem d).mp hdef
    have hcount := spreadCount_of_isLifted hd hw hs h hm hl
    rw [hname] at hcount
    exact ⟨m, hm, hl, hname, htype.symm, hcount⟩
  case acyclic => exact he.acyclic hd hs
  case order =>
    intro names
    constructor
    · intro hnames
      exact hnames.unique hvisits
    · rintro rfl
      exact hvisits

end Succeeds

end Document

/-- What extraction makes of an analyzed operation is closed, as long as different fragment contents
    have different digests.  It fails just where two lifted markers of different names or contents
    would get one name, and tells this name. -/
theorem extract_closed {schema : Schema} {shape : OperationShape} {limit : Nat}
    {set : SelectionSet} (ha : Analysis.analyze schema shape limit = .ok set)
    (hd : DistinctFingerprints set.selections) :
    (∀ set' fragments, extract set = .ok (set', fragments) →
        Closed set.selections set'.selections fragments) ∧
      (∀ e, extract set = .error e →
        ∃ name, e = .fragmentNameConflict name ∧ NameClash set.selections name) ∧
      ((∃ name, NameClash set.selections name) → ∃ e, extract set = .error e) := by
  have hs := (Analysis.analyze_faithful ha).noSpreads
  obtain ⟨new, again, hw⟩ := exists_walk [] set.selections
  have hnaming := nameGroups_tally hd hw
  rw [← countMarkers_nil hd hw] at hnaming
  refine ⟨fun set' fragments h => closed_of_walk hd hw hs h, ?_, ?_⟩
  · intro e h
    rcases hnaming with ⟨hok, -⟩ | ⟨name, herror, hclash⟩
    · unfold extract at h
      rw [hok] at h
      cases h
    · unfold extract at h
      rw [herror] at h
      cases h
      exact ⟨name, rfl, hclash⟩
  · rintro ⟨name, hclash⟩
    rcases hnaming with ⟨-, hnone⟩ | ⟨name', herror, -⟩
    · exact absurd hclash (hnone name)
    · refine ⟨.fragmentNameConflict name', ?_⟩
      unfold extract
      rw [herror]
      rfl

/-! ## A content that two places share -/

/-- The name of the hero, asked for through a fragment. -/
def nameMember : List Member := [.leaf { name := "name" }]

/-- The hero through a named fragment that holds another one, and again through that alone. -/
def sharingShape : OperationShape where
  kind := .query
  parameters := ["id"]
  members := [
    .reusing { name := "hero", named := [("id", .parameter "id")] } ⟨some "heroFields", "Hero"⟩
      [.spread ⟨none, "Hero"⟩ nameMember],
    .reusing { name := "hero", aliasName := some "other", named := [("id", .parameter "id")] }
      ⟨none, "Hero"⟩ nameMember]

/-- The operation of the sharing shape, with what stands below the two fields. -/
def sharingOperation (subs others : List Selection) : SelectionSet :=
  ⟨.query, none, "Query", [.field (heroField (.parameter "id")) subs,
    .field { heroField (.parameter "id") with aliasName := some "other" } others]⟩

def sharedMarker : Selection := .marker none "Hero" heroContent

/-- The analyzed sharing shape. -/
def sharingAnalyzed : SelectionSet :=
  sharingOperation [.marker (some "heroFields") "Hero" [sharedMarker]] [sharedMarker]

/-- The name that is derived for the shared content. -/
def sharedName : String := derivedName "Hero" (fingerprint "Hero" heroContent)

def sharingFragments : List FragmentDefinition :=
  [⟨"heroFields", "Hero", [.spread sharedName "Hero"]⟩, ⟨sharedName, "Hero", heroContent⟩]

theorem analyze_sharing :
    Analysis.analyze heroSchema sharingShape 512 = .ok sharingAnalyzed := by
  cbv

theorem fingerprint_sharing_ne :
    fingerprint "Hero" [sharedMarker] ≠ fingerprint "Hero" heroContent := by
  decide +kernel

def heroFieldsMarker : Marker := ⟨some "heroFields", "Hero", [sharedMarker]⟩

def sharedContent : Marker := ⟨none, "Hero", heroContent⟩

theorem walk_sharing : Walk [] sharingAnalyzed.selections [heroFieldsMarker, sharedContent]
    [sharedContent] := by
  have hcontent : ∀ found, Walk found heroContent [] [] := fun found =>
    .field (.nil found) (.nil _)
  have hheroFields : Walk [] [.marker (some "heroFields") "Hero" [sharedMarker]]
      [heroFieldsMarker, sharedContent] [] :=
    .first (by simp) (.first (by simp) (hcontent _) (.nil _)) (.nil _)
  have hshared : Walk [heroFieldsMarker, sharedContent] [sharedMarker] [] [sharedContent] :=
    .again (List.mem_cons_of_mem _ List.mem_cons_self) (.nil _)
  exact .field hheroFields (.field hshared (.nil _))

theorem distinctFingerprints_sharing : DistinctFingerprints sharingAnalyzed.selections := by
  intro m hm m' hm' hsame
  rw [← walk_sharing.mem_iff, List.mem_cons, List.mem_singleton] at hm hm'
  rcases hm with rfl | rfl
  · rcases hm' with rfl | rfl
    · exact ⟨rfl, rfl⟩
    · exact absurd hsame fingerprint_sharing_ne
  · rcases hm' with rfl | rfl
    · exact absurd hsame.symm fingerprint_sharing_ne
    · exact ⟨rfl, rfl⟩

theorem sharedName_ne : sharedName ≠ "heroFields" := by
  intro h
  have hchars := congrArg String.toList h
  simp [sharedName, derivedName] at hchars

theorem nameGroups_sharing :
    nameGroups [] (tally [heroFieldsMarker, sharedContent] [sharedContent]) =
      .ok (named (tally [heroFieldsMarker, sharedContent] [sharedContent])) := by
  rcases nameGroups_tally distinctFingerprints_sharing walk_sharing with
    ⟨hok, -⟩ | ⟨name, -, m, hm, m', hm', hne, -, -, hname, hname'⟩
  · exact hok
  · rw [← walk_sharing.mem_iff, List.mem_cons, List.mem_singleton] at hm hm'
    have hsame := hname.trans hname'.symm
    rcases hm with rfl | rfl
    · rcases hm' with rfl | rfl
      · exact absurd rfl hne
      · exact absurd hsame.symm sharedName_ne
    · rcases hm' with rfl | rfl
      · exact absurd hsame sharedName_ne
      · exact absurd rfl hne

theorem extract_sharing : extract sharingAnalyzed =
    .ok (sharingOperation [.spread "heroFields" "Hero"] [.spread sharedName "Hero"],
      sharingFragments) := by
  have hd := distinctFingerprints_sharing
  have hw := walk_sharing
  have hheroFields := (name?_named_tally hd hw (hw.mem_iff.mp List.mem_cons_self)).mpr
    ⟨Or.inl rfl, rfl⟩
  have hshared := (name?_named_tally hd hw (hw.mem_iff.mp (hw.mem_found List.mem_cons_self))).mpr
    ⟨Or.inr (hw.mem_again_iff.mp List.mem_cons_self), rfl⟩
  rw [extract_eq hd hw nameGroups_sharing]
  generalize named (tally [heroFieldsMarker, sharedContent] [sharedContent]) = lifted
    at hheroFields hshared ⊢
  have hbody : ∀ parent, replaced lifted parent [sharedMarker] = [.spread sharedName "Hero"] :=
    fun parent => (replaced_lifted hshared parent []).trans (by rw [replaced]; rfl)
  have houter : ∀ parent,
      replaced lifted parent [.marker (some "heroFields") "Hero" [sharedMarker]] =
        [.spread "heroFields" "Hero"] :=
    fun parent => (replaced_lifted hheroFields parent []).trans (by rw [replaced]; rfl)
  have hcontent : replaced lifted "Hero" heroContent = heroContent := by
    simp [heroContent, replaced]
  have hfragments : definitionsOf lifted [heroFieldsMarker, sharedContent] = sharingFragments := by
    rw [definitionsOf_cons hheroFields, definitionsOf_cons hshared]
    show [⟨"heroFields", "Hero", replaced lifted "Hero" [sharedMarker]⟩,
      FragmentDefinition.mk sharedName "Hero" (replaced lifted "Hero" heroContent)] = _
    rw [hcontent, hbody]
    rfl
  rw [hfragments]
  simp only [sharingAnalyzed, sharingOperation, replaced, houter, hbody]

/-- The shared content is one definition that the named one and the operation spread, after it. -/
theorem extract_closed_sharing :
    Analysis.analyze heroSchema sharingShape 512 = .ok sharingAnalyzed ∧
      DistinctFingerprints sharingAnalyzed.selections ∧
      extract sharingAnalyzed = .ok (sharingOperation [.spread "heroFields" "Hero"]
        [.spread sharedName "Hero"], sharingFragments) ∧
      Closed sharingAnalyzed.selections
        (sharingOperation [.spread "heroFields" "Hero"] [.spread sharedName "Hero"]).selections
        sharingFragments :=
  ⟨analyze_sharing, distinctFingerprints_sharing, extract_sharing,
    (extract_closed analyze_sharing distinctFingerprints_sharing).1 _ _ extract_sharing⟩

end QueryShapes.Extraction
