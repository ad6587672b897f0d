/-
  What extraction writes for the markers that its walk finds.

  The second time that extraction goes through a tree, it takes the same walk: a
  marker that is not lifted is written at one place, so it is gone into where it
  is found.  So the definitions are those of the markers that the walk finds
  (`replaceMarkers_snd`), in the order in which a reader of the written operation
  comes to them (`visits_replaced`), and their spreads are the markers that the
  walk meets (`spreads_perm`).
-/
import QueryShapes.Proofs.Extraction.Naming
import QueryShapes.Proofs.Fragments.Order

namespace QueryShapes.Extraction

open Selection Fragments

/-! ## The definitions of found markers -/

/-- The names of the lifted ones among markers. -/
def liftedNames (lifted : Lifted) (markers : List Marker) : List String :=
  markers.filterMap fun m => lifted.name? (markerKey m)

/-- The definition of a lifted marker. -/
def definitionOf? (lifted : Lifted) (m : Marker) : Option FragmentDefinition :=
  (lifted.name? (markerKey m)).map fun name =>
    ⟨name, m.typeCondition, replaced lifted m.typeCondition m.selections⟩

/-- The definitions of the lifted ones among markers. -/
def definitionsOf (lifted : Lifted) (markers : List Marker) : List FragmentDefinition :=
  markers.filterMap (definitionOf? lifted)

/-- The entries of these definitions. -/
def entriesOf (lifted : Lifted) (markers : List Marker) : Definitions :=
  (definitionsOf lifted markers).map fun d => (d.name, some d)

section Lists

variable {lifted : Lifted} {m : Marker} {name : String}

theorem liftedNames_append (lifted : Lifted) (as bs : List Marker) :
    liftedNames lifted (as ++ bs) = liftedNames lifted as ++ liftedNames lifted bs :=
  List.filterMap_append

theorem liftedNames_cons (h : lifted.name? (markerKey m) = some name) (rest : List Marker) :
    liftedNames lifted (m :: rest) = name :: liftedNames lifted rest :=
  List.filterMap_cons_some h

theorem liftedNames_cons_none (h : lifted.name? (markerKey m) = none) (rest : List Marker) :
    liftedNames lifted (m :: rest) = liftedNames lifted rest :=
  List.filterMap_cons_none h

theorem liftedNames_snoc (h : lifted.name? (markerKey m) = some name) (found : List Marker) :
    liftedNames lifted (found ++ [m]) = liftedNames lifted found ++ [name] := by
  rw [liftedNames_append, liftedNames_cons h]
  rfl

theorem liftedNames_snoc_none (h : lifted.name? (markerKey m) = none) (found : List Marker) :
    liftedNames lifted (found ++ [m]) = liftedNames lifted found := by
  rw [liftedNames_append, liftedNames_cons_none h]
  exact List.append_nil _

theorem definitionsOf_append (lifted : Lifted) (as bs : List Marker) :
    definitionsOf lifted (as ++ bs) = definitionsOf lifted as ++ definitionsOf lifted bs :=
  List.filterMap_append

theorem definitionsOf_cons (h : lifted.name? (markerKey m) = some name) (rest : List Marker) :
    definitionsOf lifted (m :: rest) =
      ⟨name, m.typeCondition, replaced lifted m.typeCondition m.selections⟩ ::
        definitionsOf lifted rest := by
  refine List.filterMap_cons_some ?_
  rw [definitionOf?, h, Option.map_some]

theorem definitionsOf_cons_none (h : lifted.name? (markerKey m) = none) (rest : List Marker) :
    definitionsOf lifted (m :: rest) = definitionsOf lifted rest := by
  refine List.filterMap_cons_none ?_
  rw [definitionOf?, h, Option.map_none]

theorem mem_definitionsOf_iff {markers : List Marker} {d : FragmentDefinition} :
    d ∈ definitionsOf lifted markers ↔ Lifts lifted markers d := by
  simp only [definitionsOf, List.mem_filterMap, definitionOf?, Option.map_eq_some_iff, Lifts]
  refine exists_congr fun m => and_congr_right fun _ => ?_
  constructor
  · rintro ⟨name, hname, rfl⟩
    exact ⟨hname, rfl, rfl⟩
  · rintro ⟨hname, htype, hsubs⟩
    refine ⟨d.name, hname, ?_⟩
    rw [← hsubs, ← htype]

theorem map_name_definitionsOf (lifted : Lifted) (markers : List Marker) :
    (definitionsOf lifted markers).map (·.name) = liftedNames lifted markers := by
  induction markers with
  | nil => rfl
  | cons m rest ih =>
    cases h : lifted.name? (markerKey m) with
    | none => rw [definitionsOf_cons_none h, liftedNames_cons_none h, ih]
    | some name => rw [definitionsOf_cons h, liftedNames_cons h, List.map_cons, ih]

theorem entriesOf_append (lifted : Lifted) (as bs : List Marker) :
    entriesOf lifted (as ++ bs) = entriesOf lifted as ++ entriesOf lifted bs := by
  rw [entriesOf, definitionsOf_append, List.map_append, entriesOf, entriesOf]

theorem keys_append_entriesOf {definitions : Definitions} {found : List Marker}
    (h : definitions.keys = liftedNames lifted found) (new : List Marker) :
    (definitions ++ entriesOf lifted new).keys = liftedNames lifted (found ++ new) := by
  rw [liftedNames_append, ← h, ← map_name_definitionsOf lifted new, entriesOf, Entries.keys,
    List.map_append, List.map_map]
  rfl

theorem values_entriesOf (lifted : Lifted) (markers : List Marker) :
    (entriesOf lifted markers).values.filterMap (·) = definitionsOf lifted markers := by
  rw [entriesOf, Entries.values, List.map_map, List.filterMap_map]
  exact List.filterMap_some

/-- A lifted marker is written as a spread. -/
theorem replaced_lifted (h : lifted.name? (markerKey m) = some name) (parent : String)
    (rest : List Selection) :
    replaced lifted parent (.marker m.name m.typeCondition m.selections :: rest) =
      .spread name m.typeCondition :: replaced lifted parent rest := by
  unfold markerKey at h
  rw [replaced, h]

/-- The markers that are not lifted are written inline. -/
theorem replaced_not_lifted (h : lifted.name? (markerKey m) = none) (parent : String)
    (rest : List Selection) :
    replaced lifted parent (.marker m.name m.typeCondition m.selections :: rest) =
      if m.typeCondition = parent then
        replaced lifted m.typeCondition m.selections ++ replaced lifted parent rest
      else .inline m.typeCondition (replaced lifted m.typeCondition m.selections) ::
        replaced lifted parent rest := by
  unfold markerKey at h
  rw [replaced, h]

end Lists

/-! ## The definitions that are written -/

section Walk

variable {lifted : Lifted} {whole : List Selection} {found new again : List Marker}
  {selections : List Selection}

theorem not_mem_liftedNames (hapart : NamedApart lifted whole)
    (hfound : ∀ m ∈ found, m ∈ allMarkers whole) {m : Marker} (hm : m ∈ allMarkers whole)
    (hnew : m ∉ found) {name : String} (hname : lifted.name? (markerKey m) = some name) :
    name ∉ liftedNames lifted found := by
  intro hmem
  obtain ⟨m', hm', hname'⟩ := List.mem_filterMap.mp hmem
  have hsame := hapart m' (hfound m' hm') m hm name hname' hname
  exact hnew (hsame ▸ hm')

/-- Replacing the markers of a part of the tree adds the definitions of the markers that are found
    there, if all that are met again are lifted. -/
theorem replaceMarkers_snd (hapart : NamedApart lifted whole)
    (h : Walk found selections new again) (hw : Within selections whole)
    (hfound : ∀ m ∈ found, m ∈ allMarkers whole)
    (hagain : ∀ m ∈ again, (lifted.name? (markerKey m)).isSome = true) {definitions : Definitions}
    (hkeys : definitions.keys = liftedNames lifted found) (parent : String) :
    (replaceMarkers lifted parent definitions selections).2 =
      definitions ++ entriesOf lifted new := by
  induction h generalizing definitions parent with
  | nil found =>
    rw [replaceMarkers]
    exact (List.append_nil definitions).symm
  | @field f subs rest found new new' again again' hsubs hrest ihs ihr =>
    have hws := (within_children_cons (.field f subs) rest).trans hw
    rw [List.forall_mem_append] at hagain
    rw [replaceMarkers]
    dsimp only
    rw [ihs hws hfound hagain.1 hkeys, ihr ((within_tail _ rest).trans hw)
      (hsubs.found_within hws hfound) hagain.2 (keys_append_entriesOf hkeys new), entriesOf_append,
      List.append_assoc]
  | spread _ ihr =>
    rw [replaceMarkers]
    exact ihr ((within_tail _ _).trans hw) hfound hagain hkeys parent
  | @inline condition subs rest found new new' again again' hsubs hrest ihs ihr =>
    have hws := (within_children_cons (.inline condition subs) rest).trans hw
    rw [List.forall_mem_append] at hagain
    rw [replaceMarkers]
    dsimp only
    rw [ihs hws hfound hagain.1 hkeys, ihr ((within_tail _ rest).trans hw)
      (hsubs.found_within hws hfound) hagain.2 (keys_append_entriesOf hkeys new), entriesOf_append,
      List.append_assoc]
  | @again name condition subs rest found new again hmem hrest ihr =>
    rw [List.forall_mem_cons] at hagain
    obtain ⟨fragment, hname⟩ := Option.isSome_iff_exists.mp hagain.1
    have hcontains : definitions.contains fragment = true := by
      rw [← Entries.mem_keys_iff, hkeys]
      exact List.mem_filterMap.mpr ⟨_, hmem, hname⟩
    unfold markerKey at hname
    rw [replaceMarkers, hname]
    dsimp only
    rw [if_pos hcontains]
    exact ihr ((within_tail _ rest).trans hw) hfound hagain.2 hkeys parent
  | @first name condition subs rest found new new' again again' hnew hsubs hrest ihs ihr =>
    have hws := (within_children_cons (.marker name condition subs) rest).trans hw
    have hwr := (within_tail (.marker name condition subs) rest).trans hw
    have hself := mem_of_within_cons hw
    have hfound' := found_snoc_within hw hfound
    rw [List.forall_mem_append] at hagain
    cases hname : lifted.name? (markerKey ⟨name, condition, subs⟩) with
    | none =>
      have hkeys' : definitions.keys = liftedNames lifted (found ++ [⟨name, condition, subs⟩]) := by
        rw [liftedNames_snoc_none hname, hkeys]
      rw [entriesOf, definitionsOf_cons_none hname, ← entriesOf]
      unfold markerKey at hname
      rw [replaceMarkers, hname]
      dsimp only
      rw [ihs hws hfound' hagain.1 hkeys', ihr hwr (hsubs.found_within hws hfound') hagain.2
        (keys_append_entriesOf hkeys' new), entriesOf_append, List.append_assoc]
    | some fragment =>
      have hfree : definitions.contains fragment = false := by
        rw [← Bool.not_eq_true, ← Entries.mem_keys_iff, hkeys]
        exact not_mem_liftedNames hapart hfound hself hnew hname
      -- whatever stands in the place that is taken for the definition
      have hkeys' : ∀ d : Option FragmentDefinition, (definitions ++ [(fragment, d)]).keys =
          liftedNames lifted (found ++ [⟨name, condition, subs⟩]) := by
        intro d
        rw [liftedNames_snoc hname, ← hkeys, Entries.keys, List.map_append]
        rfl
      have hplace := Entries.insert_of_not_contains (none : Option FragmentDefinition) hfree
      have hfill : ∀ d : FragmentDefinition,
          (definitions ++ [(fragment, none)] ++ entriesOf lifted new).insert fragment (some d) =
            definitions ++ [(fragment, some d)] ++ entriesOf lifted new := by
        intro d
        rw [List.append_assoc, Entries.insert_append hfree, List.singleton_append, Entries.insert,
          if_pos rfl, ← List.singleton_append, List.append_assoc]
      rw [entriesOf, definitionsOf_cons hname, List.map_cons, ← entriesOf]
      unfold markerKey at hname
      rw [replaceMarkers, hname]
      dsimp only
      rw [if_neg (Bool.eq_false_iff.mp hfree)]
      dsimp only
      rw [hplace, replaceMarkers_fst, ihs hws hfound' hagain.1 (hkeys' none), hfill,
        ihr hwr (hsubs.found_within hws hfound') hagain.2 (keys_append_entriesOf (hkeys' _) new),
        entriesOf_append, List.append_cons definitions _ (entriesOf lifted new ++ _),
        List.append_assoc]

/-- The spreads in the definitions of the lifted ones among markers. -/
def spreadsIn (lifted : Lifted) (markers : List Marker) : List (String × String) :=
  (definitionsOf lifted markers).flatMap (allSpreads ·.selections)

theorem spreadsIn_append (lifted : Lifted) (as bs : List Marker) :
    spreadsIn lifted (as ++ bs) = spreadsIn lifted as ++ spreadsIn lifted bs := by
  rw [spreadsIn, definitionsOf_append, List.flatMap_append, spreadsIn, spreadsIn]

/-- The spreads are the markers met, in one part of a list and in the next, so in both. -/
theorem spreads_perm_append {new' again' : List Marker} {as bs : List (String × String)}
    (h : ((as ++ spreadsIn lifted new).map Prod.fst).Perm (liftedNames lifted (new ++ again)))
    (h' : ((bs ++ spreadsIn lifted new').map Prod.fst).Perm
      (liftedNames lifted (new' ++ again'))) :
    ((as ++ bs ++ spreadsIn lifted (new ++ new')).map Prod.fst).Perm
      (liftedNames lifted (new ++ new' ++ (again ++ again'))) := by
  have hmet := (perm_append_swap new again new' again').filterMap
    fun m => lifted.name? (markerKey m)
  have hspreads := (perm_append_swap as bs (spreadsIn lifted new) (spreadsIn lifted new')).map
    Prod.fst
  rw [← spreadsIn_append] at hspreads
  rw [List.filterMap_append] at hmet
  refine hspreads.trans ?_
  rw [List.map_append]
  exact (h.append h').trans hmet

/-- What a walk meets, of the lifted markers, is what is spread in the written list and in the
    definitions of the markers found. -/
theorem spreads_perm (h : Walk found selections new again) (hs : allSpreads selections = [])
    (hagain : ∀ m ∈ again, (lifted.name? (markerKey m)).isSome = true) (parent : String) :
    ((allSpreads (replaced lifted parent selections) ++ spreadsIn lifted new).map Prod.fst).Perm
      (liftedNames lifted (new ++ again)) := by
  induction h generalizing parent with
  | nil found => simp [replaced, allSpreads, spreadsIn, definitionsOf, liftedNames]
  | field _ _ ihs ihr | inline _ _ ihs ihr =>
    rw [allSpreads, List.append_eq_nil_iff] at hs
    rw [List.forall_mem_append] at hagain
    rw [replaced, allSpreads]
    exact spreads_perm_append (ihs hs.1 hagain.1 _) (ihr hs.2 hagain.2 parent)
  | spread _ _ => simp [allSpreads] at hs
  | @again name condition subs rest found new again _ _ ihr =>
    rw [allSpreads, List.append_eq_nil_iff] at hs
    rw [List.forall_mem_cons] at hagain
    obtain ⟨fragment, hname⟩ := Option.isSome_iff_exists.mp hagain.1
    have hmet : (fragment :: liftedNames lifted (new ++ again)).Perm
        (liftedNames lifted (new ++ ⟨name, condition, subs⟩ :: again)) := by
      rw [← liftedNames_cons hname]
      exact List.perm_middle.symm.filterMap _
    rw [replaced_lifted hname, allSpreads]
    exact ((ihr hs.2 hagain.2 parent).cons fragment).trans hmet
  | @first name condition subs rest found new new' again again' _ _ _ ihs ihr =>
    rw [allSpreads, List.append_eq_nil_iff] at hs
    rw [List.forall_mem_append] at hagain
    have hboth := spreads_perm_append (ihs hs.1 hagain.1 condition) (ihr hs.2 hagain.2 parent)
    rw [List.cons_append]
    cases hname : lifted.name? (markerKey ⟨name, condition, subs⟩) with
    | none =>
      rw [spreadsIn, definitionsOf_cons_none hname, ← spreadsIn, liftedNames_cons_none hname]
      rw [replaced_not_lifted hname]
      split
      · rw [allSpreads_append]
        exact hboth
      · rw [allSpreads]
        exact hboth
    | some fragment =>
      rw [spreadsIn, definitionsOf_cons hname, List.flatMap_cons, ← spreadsIn,
        liftedNames_cons hname, replaced_lifted hname, allSpreads]
      -- the spreads of the body stand in its definition and not in the list
      have hmove := (List.perm_append_comm_assoc (allSpreads (replaced lifted parent rest))
        (allSpreads (replaced lifted condition subs)) (spreadsIn lifted (new ++ new'))).map Prod.fst
      rw [← List.append_assoc (allSpreads (replaced lifted condition subs))] at hmove
      exact (hmove.trans hboth).cons fragment

/-- A reader of the written list comes to the definitions of the markers found, in the order in
    which they are found. -/
theorem visits_replaced {fragments : List FragmentDefinition} (hapart : NamedApart lifted whole)
    (hfind : ∀ m ∈ allMarkers whole, ∀ name, lifted.name? (markerKey m) = some name →
      find? fragments name =
        some ⟨name, m.typeCondition, replaced lifted m.typeCondition m.selections⟩)
    (h : Walk found selections new again) (hw : Within selections whole)
    (hfound : ∀ m ∈ found, m ∈ allMarkers whole) (hs : allSpreads selections = [])
    (hagain : ∀ m ∈ again, (lifted.name? (markerKey m)).isSome = true) (parent : String) :
    Visits fragments (liftedNames lifted found) (replaced lifted parent selections)
      (liftedNames lifted (found ++ new)) := by
  induction h generalizing parent with
  | nil found =>
    rw [replaced, List.append_nil]
    exact .nil _
  | @field f subs rest found new new' again again' hsubs hrest ihs ihr =>
    have hws := (within_children_cons (.field f subs) rest).trans hw
    rw [allSpreads, List.append_eq_nil_iff] at hs
    rw [List.forall_mem_append] at hagain
    rw [replaced, ← List.append_assoc]
    exact .field (ihs hws hfound hs.1 hagain.1 _) (ihr ((within_tail _ rest).trans hw)
      (hsubs.found_within hws hfound) hs.2 hagain.2 parent)
  | spread _ _ => simp [allSpreads] at hs
  | @inline condition subs rest found new new' again again' hsubs hrest ihs ihr =>
    have hws := (within_children_cons (.inline condition subs) rest).trans hw
    rw [allSpreads, List.append_eq_nil_iff] at hs
    rw [List.forall_mem_append] at hagain
    rw [replaced, ← List.append_assoc]
    exact .inline (ihs hws hfound hs.1 hagain.1 _) (ihr ((within_tail _ rest).trans hw)
      (hsubs.found_within hws hfound) hs.2 hagain.2 parent)
  | @again name condition subs rest found new again hmem hrest ihr =>
    rw [allSpreads, List.append_eq_nil_iff] at hs
    rw [List.forall_mem_cons] at hagain
    obtain ⟨fragment, hname⟩ := Option.isSome_iff_exists.mp hagain.1
    have hentered : fragment ∈ liftedNames lifted found :=
      List.mem_filterMap.mpr ⟨_, hmem, hname⟩
    rw [replaced_lifted hname]
    exact .again hentered (ihr ((within_tail _ rest).trans hw) hfound hs.2 hagain.2 parent)
  | @first name condition subs rest found new new' again again' hnew hsubs hrest ihs ihr =>
    have hws := (within_children_cons (.marker name condition subs) rest).trans hw
    have hwr := (within_tail (.marker name condition subs) rest).trans hw
    have hself := mem_of_within_cons hw
    have hfound' := found_snoc_within hw hfound
    rw [allSpreads, List.append_eq_nil_iff] at hs
    rw [List.forall_mem_append] at hagain
    have hbody := ihs hws hfound' hs.1 hagain.1 condition
    have hafter := ihr hwr (hsubs.found_within hws hfound') hs.2 hagain.2 parent
    rw [List.append_cons, ← List.append_assoc]
    cases hname : lifted.name? (markerKey ⟨name, condition, subs⟩) with
    | none =>
      rw [liftedNames_snoc_none hname] at hbody
      rw [replaced_not_lifted hname]
      by_cases hc : condition = parent
      · rw [if_pos hc]
        exact hbody.append hafter
      · rw [if_neg hc]
        exact .inline hbody hafter
    | some fragment =>
      rw [liftedNames_snoc hname] at hbody
      rw [replaced_lifted hname]
      have hentered := not_mem_liftedNames hapart hfound hself hnew hname
      exact .first hentered (hfind _ hself fragment hname) hbody hafter

end Walk

end QueryShapes.Extraction
