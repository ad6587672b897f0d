/-
  The walk that finds the markers of a tree.

  Extraction goes through a tree twice, and both times it goes into a marker only
  where it meets it for the first time.  `Walk` is this walk, with the markers
  that it finds and those that it meets again.  It finds every marker of the tree
  (`Walk.mem_iff`), and meets again just those that are written at two places of
  the operation and of what its markers hold (`Walk.mem_again_iff`).  What
  extraction counts is the tally of a walk (`countMarkers_tally`).
-/
import Mathlib.Data.List.Nodup
import Mathlib.Data.List.Pairwise
import QueryShapes.Proofs.Extraction.Definitions

namespace QueryShapes.Extraction

open Selection

/-! ## Markers that stand in no other -/

/-- The markers of a list that stand in no other marker of it, in reading order. -/
def outermost : List Selection → List Marker
  | [] => []
  | .field _ subs :: rest => outermost subs ++ outermost rest
  | .spread _ _ :: rest => outermost rest
  | .inline _ subs :: rest => outermost subs ++ outermost rest
  | .marker name condition subs :: rest => ⟨name, condition, subs⟩ :: outermost rest

/-- What holds of the outermost markers of a list, and of the outermost ones in each marker that it
    holds of, holds of all markers. -/
theorem forall_mem_allMarkers {P : Marker → Prop}
    (hstep : ∀ m, P m → ∀ m' ∈ outermost m.selections, P m') {selections : List Selection}
    (h : ∀ m ∈ outermost selections, P m) : ∀ m ∈ allMarkers selections, P m := by
  induction selections using listInduction with
  | nil => simp [allMarkers]
  | field f subs rest ihs ihr =>
    rw [outermost, List.forall_mem_append] at h
    rw [allMarkers, List.forall_mem_append]
    exact ⟨ihs h.1, ihr h.2⟩
  | spread name condition rest ihr =>
    rw [outermost] at h
    rw [allMarkers]
    exact ihr h
  | inline condition subs rest ihs ihr =>
    rw [outermost, List.forall_mem_append] at h
    rw [allMarkers, List.forall_mem_append]
    exact ⟨ihs h.1, ihr h.2⟩
  | marker name condition subs rest ihs ihr =>
    rw [outermost, List.forall_mem_cons] at h
    rw [allMarkers, List.forall_mem_cons, List.forall_mem_append]
    exact ⟨h.1, ihs (hstep _ h.1), ihr h.2⟩

/-! ## The places of a marker -/

/-- A place for a marker: in the operation or in another marker, and there among the outermost
    ones. -/
structure Place where
  host : Option Marker
  index : Nat

/-- What a host holds. -/
def hosted (selections : List Selection) : Option Marker → List Selection
  | none => selections
  | some m => m.selections

/-- The marker is written at the place. -/
def StandsAt (selections : List Selection) (m : Marker) (p : Place) : Prop :=
  (∀ h ∈ p.host, h ∈ allMarkers selections) ∧
    (outermost (hosted selections p.host))[p.index]? = some m

/-- The marker is written at two places.  Places in a marker that is itself written twice are the
    same places. -/
def Repeated (selections : List Selection) (m : Marker) : Prop :=
  ∃ p q, p ≠ q ∧ StandsAt selections m p ∧ StandsAt selections m q

/-! ## Twice in a list -/

/-- Not both are the marker. -/
def Apart (m x y : Marker) : Prop := ¬ (x = m ∧ y = m)

theorem Apart.symm {m x y : Marker} (h : Apart m x y) : Apart m y x :=
  fun hyx => h ⟨hyx.2, hyx.1⟩

theorem not_mem_of_pairwise_apart {m : Marker} {as bs : List Marker} (hm : m ∈ as)
    (h : (as ++ bs).Pairwise (Apart m)) : m ∉ bs :=
  fun hm' => (List.pairwise_append.mp h).2.2 m hm m hm' ⟨rfl, rfl⟩

theorem pairwise_apart_append {m : Marker} {as bs : List Marker} (hn : as.Nodup) (hm : m ∉ bs) :
    (as ++ bs).Pairwise (Apart m) := by
  refine List.pairwise_append.mpr ⟨?_, ?_, ?_⟩
  · exact hn.imp fun hne hboth => hne (hboth.1.trans hboth.2.symm)
  · exact List.pairwise_of_forall_mem_list fun x hx y _ hboth => hm (hboth.1 ▸ hx)
  · exact fun x _ y hy hboth => hm (hboth.2 ▸ hy)

/-- A marker stands at two places of some hosts if it stands twice in what they hold. -/
theorem pairwise_apart_iff {hosts : List (Option Marker)} (hn : hosts.Nodup)
    {holds : Option Marker → List Marker} {m : Marker} :
    (hosts.flatMap holds).Pairwise (Apart m) ↔
      ∀ p q : Place, p.host ∈ hosts → q.host ∈ hosts → (holds p.host)[p.index]? = some m →
        (holds q.host)[q.index]? = some m → p = q := by
  rw [List.pairwise_flatMap]
  constructor
  · rintro ⟨hin, hout⟩ ⟨a, i⟩ ⟨b, j⟩ ha hb hi hj
    by_cases hab : a = b
    · subst hab
      obtain ⟨hli, hi⟩ := List.getElem?_eq_some_iff.mp hi
      obtain ⟨hlj, hj⟩ := List.getElem?_eq_some_iff.mp hj
      have hpairs := List.pairwise_iff_getElem.mp (hin a ha)
      rcases Nat.lt_trichotomy i j with hij | rfl | hij
      · exact absurd ⟨hi, hj⟩ (hpairs i j hli hlj hij)
      · rfl
      · exact absurd ⟨hj, hi⟩ (hpairs j i hlj hli hij)
    · have hsymm : Std.Symm fun a b => ∀ x ∈ holds a, ∀ y ∈ holds b, Apart m x y :=
        ⟨fun a b h x hx y hy => (h y hy x hx).symm⟩
      exact absurd ⟨rfl, rfl⟩
        (hout.forall ha hb hab m (List.mem_of_getElem? hi) m (List.mem_of_getElem? hj))
  · intro h
    refine ⟨fun a ha => ?_, hn.pairwise_of_forall_ne fun a ha b hb hne x hx y hy hboth => ?_⟩
    · refine List.pairwise_iff_getElem.mpr fun i j hi hj hij hboth => ?_
      have hsame := h ⟨a, i⟩ ⟨a, j⟩ ha ha (List.getElem?_eq_some_iff.mpr ⟨hi, hboth.1⟩)
        (List.getElem?_eq_some_iff.mpr ⟨hj, hboth.2⟩)
      exact Nat.ne_of_lt hij (congrArg Place.index hsame)
    · obtain ⟨i, hi⟩ := List.mem_iff_getElem?.mp hx
      obtain ⟨j, hj⟩ := List.mem_iff_getElem?.mp hy
      have hsame := h ⟨a, i⟩ ⟨b, j⟩ ha hb (hboth.1 ▸ hi) (hboth.2 ▸ hj)
      exact hne (congrArg Place.host hsame)

/-! ## The walk -/

/-- Reading a list left to right, and the content of each marker where it is met for the first
    time, finds new markers besides those found before, and meets some again. -/
inductive Walk : List Marker → List Selection → List Marker → List Marker → Prop
  | nil (found : List Marker) : Walk found [] [] []
  | field {f : Field} {subs rest : List Selection} {found new new' again again' : List Marker} :
    Walk found subs new again → Walk (found ++ new) rest new' again' →
      Walk found (.field f subs :: rest) (new ++ new') (again ++ again')
  | spread {name condition : String} {rest : List Selection} {found new again : List Marker} :
    Walk found rest new again → Walk found (.spread name condition :: rest) new again
  | inline {condition : String} {subs rest : List Selection}
    {found new new' again again' : List Marker} :
    Walk found subs new again → Walk (found ++ new) rest new' again' →
      Walk found (.inline condition subs :: rest) (new ++ new') (again ++ again')
  | again {name : Option String} {condition : String} {subs rest : List Selection}
    {found new again : List Marker} :
    ⟨name, condition, subs⟩ ∈ found → Walk found rest new again →
      Walk found (.marker name condition subs :: rest) new (⟨name, condition, subs⟩ :: again)
  | first {name : Option String} {condition : String} {subs rest : List Selection}
    {found new new' again again' : List Marker} :
    ⟨name, condition, subs⟩ ∉ found → Walk (found ++ [⟨name, condition, subs⟩]) subs new again →
      Walk (found ++ [⟨name, condition, subs⟩] ++ new) rest new' again' →
      Walk found (.marker name condition subs :: rest) (⟨name, condition, subs⟩ :: (new ++ new'))
        (again ++ again')

theorem exists_walk (found : List Marker) (selections : List Selection) :
    ∃ new again, Walk found selections new again := by
  induction selections using listInduction generalizing found with
  | nil => exact ⟨_, _, .nil found⟩
  | field f subs rest ihs ihr =>
    obtain ⟨new, again, hsubs⟩ := ihs found
    obtain ⟨new', again', hrest⟩ := ihr (found ++ new)
    exact ⟨_, _, .field hsubs hrest⟩
  | spread name condition rest ihr =>
    obtain ⟨new, again, hrest⟩ := ihr found
    exact ⟨_, _, .spread hrest⟩
  | inline condition subs rest ihs ihr =>
    obtain ⟨new, again, hsubs⟩ := ihs found
    obtain ⟨new', again', hrest⟩ := ihr (found ++ new)
    exact ⟨_, _, .inline hsubs hrest⟩
  | marker name condition subs rest ihs ihr =>
    by_cases hm : ⟨name, condition, subs⟩ ∈ found
    · obtain ⟨new, again, hrest⟩ := ihr found
      exact ⟨_, _, .again hm hrest⟩
    · obtain ⟨new, again, hsubs⟩ := ihs (found ++ [⟨name, condition, subs⟩])
      obtain ⟨new', again', hrest⟩ := ihr (found ++ [⟨name, condition, subs⟩] ++ new)
      exact ⟨_, _, .first hm hsubs hrest⟩

/-- The middle lists of two pairs may change places. -/
theorem perm_append_swap {α : Type} (as bs cs ds : List α) :
    (as ++ bs ++ (cs ++ ds)).Perm (as ++ cs ++ (bs ++ ds)) := by
  rw [List.append_assoc, List.append_assoc]
  exact (List.perm_append_comm_assoc bs cs ds).append_left as

namespace Walk

variable {found new again : List Marker} {selections : List Selection}

/-- What is found is in the tree. -/
theorem mem_allMarkers (h : Walk found selections new again) {m : Marker} (hm : m ∈ new) :
    m ∈ allMarkers selections := by
  induction h with
  | nil found => cases hm
  | field _ _ ihs ihr | inline _ _ ihs ihr =>
    rw [allMarkers, List.mem_append]
    exact (List.mem_append.mp hm).imp ihs ihr
  | spread _ ihr =>
    rw [allMarkers]
    exact ihr hm
  | again _ _ ihr =>
    rw [allMarkers, List.mem_cons, List.mem_append]
    exact Or.inr (Or.inr (ihr hm))
  | first _ _ _ ihs ihr =>
    rw [allMarkers, List.mem_cons, List.mem_append]
    exact (List.mem_cons.mp hm).imp_right fun hm => (List.mem_append.mp hm).imp ihs ihr

/-- What is met again was found. -/
theorem mem_found (h : Walk found selections new again) {m : Marker} (hm : m ∈ again) :
    m ∈ found ++ new := by
  induction h with
  | nil found => cases hm
  | field _ _ ihs ihr | inline _ _ ihs ihr =>
    rw [← List.append_assoc]
    rcases List.mem_append.mp hm with hm | hm
    · exact List.mem_append_left _ (ihs hm)
    · exact ihr hm
  | spread _ ihr => exact ihr hm
  | again hmem _ ihr =>
    rcases List.mem_cons.mp hm with rfl | hm
    · exact List.mem_append_left _ hmem
    · exact ihr hm
  | first _ _ _ ihs ihr =>
    rw [List.append_cons, ← List.append_assoc]
    rcases List.mem_append.mp hm with hm | hm
    · exact List.mem_append_left _ (ihs hm)
    · exact ihr hm

theorem found_within {whole : List Selection} (h : Walk found selections new again)
    (hw : Within selections whole) (hfound : ∀ m ∈ found, m ∈ allMarkers whole) :
    ∀ m ∈ found ++ new, m ∈ allMarkers whole := by
  rw [List.forall_mem_append]
  exact ⟨hfound, fun m hm => hw.markers m (h.mem_allMarkers hm)⟩

theorem again_within {before : List Marker} (h : Walk found selections new again)
    (hbefore : ∀ m ∈ before, m ∈ found) : ∀ m ∈ before ++ again, m ∈ found ++ new := by
  rw [List.forall_mem_append]
  exact ⟨fun m hm => List.mem_append_left _ (hbefore m hm), fun m hm => h.mem_found hm⟩

/-- Nothing is found twice. -/
theorem nodup (h : Walk found selections new again) (hn : found.Nodup) : (found ++ new).Nodup := by
  induction h with
  | nil found =>
    rw [List.append_nil]
    exact hn
  | field _ _ ihs ihr | inline _ _ ihs ihr =>
    rw [← List.append_assoc]
    exact ihr (ihs hn)
  | spread _ ihr => exact ihr hn
  | again _ _ ihr => exact ihr hn
  | first hnew _ _ ihs ihr =>
    rw [List.append_cons, ← List.append_assoc]
    refine ihr (ihs ?_)
    rw [← List.concat_eq_append]
    exact hn.concat hnew

/-- What is met, for the first time or again, are the outermost markers of the list and of the
    markers found. -/
theorem perm (h : Walk found selections new again) :
    (new ++ again).Perm (outermost selections ++ new.flatMap (outermost ·.selections)) := by
  induction h with
  | nil found => simp [outermost]
  | field _ _ ihs ihr | inline _ _ ihs ihr =>
    rw [outermost, List.flatMap_append]
    have hboth := (ihs.append ihr).trans (perm_append_swap _ _ _ _)
    exact (perm_append_swap _ _ _ _).trans hboth
  | spread _ ihr =>
    rw [outermost]
    exact ihr
  | again _ _ ihr =>
    rw [outermost]
    exact List.perm_middle.trans (ihr.cons _)
  | first _ _ _ ihs ihr =>
    rw [outermost, List.flatMap_cons, List.flatMap_append]
    have hboth := (ihs.append ihr).trans (perm_append_swap _ _ _ _)
    have hrest := hboth.trans (List.perm_append_comm.append_right _)
    refine List.Perm.cons _ ((perm_append_swap _ _ _ _).trans ?_)
    simpa only [List.append_eq, List.append_assoc] using hrest

/-- A walk finds the markers of the tree. -/
theorem mem_iff (h : Walk [] selections new again) {m : Marker} :
    m ∈ new ↔ m ∈ allMarkers selections := by
  have hmet : ∀ {m : Marker}, m ∈ outermost selections ++ new.flatMap (outermost ·.selections) →
      m ∈ new := by
    intro m hm
    rcases List.mem_append.mp (h.perm.mem_iff.mpr hm) with hm | hm
    · exact hm
    · exact h.mem_found hm
  constructor
  · exact h.mem_allMarkers
  · refine forall_mem_allMarkers (P := (· ∈ new)) ?_ ?_ m
    · intro host hhost m hm
      exact hmet (List.mem_append_right _ (List.mem_flatMap.mpr ⟨host, hhost, hm⟩))
    · intro m hm
      exact hmet (List.mem_append_left _ hm)

/-- What is met again is written at two places. -/
theorem mem_again_iff (h : Walk [] selections new again) {m : Marker} :
    m ∈ again ↔ Repeated selections m := by
  have hn : new.Nodup := h.nodup List.nodup_nil
  have hhosts : (none :: new.map some).Nodup := by
    simp [List.nodup_cons, hn.map (Option.some_injective _)]
  have hhost : ∀ host : Option Marker,
      (∀ m ∈ host, m ∈ allMarkers selections) ↔ host ∈ none :: new.map some := by
    intro host
    cases host <;> simp [h.mem_iff]
  let holds (host : Option Marker) : List Marker := outermost (hosted selections host)
  have hmet : (new ++ again).Perm ((none :: new.map some).flatMap holds) := by
    rw [List.flatMap_cons, List.flatMap_map]
    exact h.perm
  constructor
  · intro hm
    by_contra hnot
    have hplaces : ((none :: new.map some).flatMap holds).Pairwise (Apart m) := by
      refine (pairwise_apart_iff hhosts).mpr fun p q hp hq hp' hq' => ?_
      by_contra hne
      exact hnot ⟨p, q, hne, ⟨(hhost _).mpr hp, hp'⟩, (hhost _).mpr hq, hq'⟩
    have hpairs := (hmet.pairwise_iff Apart.symm).mpr hplaces
    exact not_mem_of_pairwise_apart (h.mem_found hm) hpairs hm
  · rintro ⟨p, q, hne, ⟨hp, hp'⟩, hq, hq'⟩
    by_contra hm
    have hpairs := (hmet.pairwise_iff Apart.symm).mp (pairwise_apart_append hn hm)
    exact hne ((pairwise_apart_iff hhosts).mp hpairs p q ((hhost _).mp hp) ((hhost _).mp hq)
      hp' hq')

end Walk

/-! ## Parts of a tree -/

theorem mem_of_within_cons {whole : List Selection} {name : Option String} {condition : String}
    {subs rest : List Selection} (hw : Within (.marker name condition subs :: rest) whole) :
    ⟨name, condition, subs⟩ ∈ allMarkers whole := by
  refine hw.markers _ ?_
  rw [allMarkers]
  exact List.mem_cons_self

/-- A marker of the tree may join those found in it. -/
theorem found_snoc_within {whole : List Selection} {name : Option String} {condition : String}
    {subs rest : List Selection} (hw : Within (.marker name condition subs :: rest) whole)
    {found : List Marker} (hfound : ∀ m ∈ found, m ∈ allMarkers whole) :
    ∀ m ∈ found ++ [⟨name, condition, subs⟩], m ∈ allMarkers whole := by
  rw [List.forall_mem_append, List.forall_mem_singleton]
  exact ⟨hfound, mem_of_within_cons hw⟩

/-! ## What is counted -/

theorem DistinctFingerprints.eq_of_markerKey {whole : List Selection}
    (hd : DistinctFingerprints whole) {m m' : Marker} (hm : m ∈ allMarkers whole)
    (hm' : m' ∈ allMarkers whole) (h : markerKey m = markerKey m') : m = m' := by
  obtain ⟨htype, hsubs⟩ := hd m hm m' hm' (congrArg GroupKey.fingerprint h)
  cases m
  cases m'
  simp_all [markerKey, groupKey]

/-- The group of a found marker, with the number of times that it was met. -/
def groupOf (again : List Marker) (m : Marker) : Group :=
  ⟨markerKey m, m.typeCondition, 1 + (again.map markerKey).count (markerKey m)⟩

/-- The groups of the found markers. -/
def tally (found again : List Marker) : List Group := found.map (groupOf again)

theorem any_tally {whole : List Selection} (hd : DistinctFingerprints whole)
    {found : List Marker} (hfound : ∀ m ∈ found, m ∈ allMarkers whole) (again : List Marker)
    {m : Marker} (hm : m ∈ allMarkers whole) :
    (tally found again).any (·.key = markerKey m) = true ↔ m ∈ found := by
  simp only [tally, List.any_map, List.any_eq_true, Function.comp_apply, decide_eq_true_eq]
  constructor
  · rintro ⟨m', hm', hkey⟩
    rw [← hd.eq_of_markerKey (hfound m' hm') hm hkey]
    exact hm'
  · intro hmem
    exact ⟨m, hmem, rfl⟩

theorem recount_tally (found again : List Marker) (m : Marker) :
    recount (markerKey m) (tally found again) = tally found (again ++ [m]) := by
  simp only [recount, tally, List.map_map]
  refine List.map_congr_left fun m' _ => ?_
  simp only [Function.comp_apply, groupOf, List.map_append, List.map_singleton, List.count_append,
    List.count_singleton]
  by_cases hkey : markerKey m' = markerKey m
  · simp [hkey, Nat.add_assoc]
  · simp [hkey, Ne.symm hkey]

theorem tally_append (found : List Marker) {again : List Marker} {m : Marker}
    (hm : markerKey m ∉ again.map markerKey) :
    tally found again ++ [⟨markerKey m, m.typeCondition, 1⟩] = tally (found ++ [m]) again := by
  rw [tally, tally, List.map_append, List.map_singleton, groupOf, List.count_eq_zero_of_not_mem hm]

/-- Counting the markers of a part of the tree adds a walk of it to the tally. -/
theorem countMarkers_tally {whole : List Selection} (hd : DistinctFingerprints whole)
    {found new again : List Marker} {selections : List Selection}
    (h : Walk found selections new again) (hw : Within selections whole)
    (hfound : ∀ m ∈ found, m ∈ allMarkers whole) {before : List Marker}
    (hbefore : ∀ m ∈ before, m ∈ found) :
    countMarkers (tally found before) selections = tally (found ++ new) (before ++ again) := by
  induction h generalizing before with
  | nil found => rw [countMarkers, List.append_nil, List.append_nil]
  | @field f subs rest found new new' again again' hsubs hrest ihs ihr =>
    have hws := (within_children_cons (.field f subs) rest).trans hw
    rw [countMarkers, ihs hws hfound hbefore, ihr ((within_tail _ rest).trans hw)
      (hsubs.found_within hws hfound) (hsubs.again_within hbefore), List.append_assoc,
      List.append_assoc]
  | spread _ ihr =>
    rw [countMarkers]
    exact ihr ((within_tail _ _).trans hw) hfound hbefore
  | @inline condition subs rest found new new' again again' hsubs hrest ihs ihr =>
    have hws := (within_children_cons (.inline condition subs) rest).trans hw
    rw [countMarkers, ihs hws hfound hbefore, ihr ((within_tail _ rest).trans hw)
      (hsubs.found_within hws hfound) (hsubs.again_within hbefore), List.append_assoc,
      List.append_assoc]
  | @again name condition subs rest found new again hmem hrest ihr =>
    have hself := mem_of_within_cons hw
    have hany := (any_tally hd hfound before hself).mpr hmem
    have hcount := recount_tally found before ⟨name, condition, subs⟩
    unfold markerKey at hany hcount
    have hbefore' : ∀ m ∈ before ++ [⟨name, condition, subs⟩], m ∈ found := by
      rw [List.forall_mem_append, List.forall_mem_singleton]
      exact ⟨hbefore, hmem⟩
    rw [countMarkers, if_pos hany, hcount, ihr ((within_tail _ rest).trans hw) hfound hbefore',
      List.append_assoc, List.singleton_append]
  | @first name condition subs rest found new new' again again' hnew hsubs hrest ihs ihr =>
    have hws := (within_children_cons (.marker name condition subs) rest).trans hw
    have hself := mem_of_within_cons hw
    have hany := mt (any_tally hd hfound before hself).mp hnew
    have hkey : markerKey ⟨name, condition, subs⟩ ∉ before.map markerKey := by
      intro hmem
      obtain ⟨m, hm, hkey⟩ := List.mem_map.mp hmem
      have hsame := hd.eq_of_markerKey (hfound m (hbefore m hm)) hself hkey
      exact hnew (hsame ▸ hbefore m hm)
    have hcount := tally_append found hkey
    unfold markerKey at hany hcount
    have hfound' := found_snoc_within hw hfound
    have hbefore' : ∀ m ∈ before, m ∈ found ++ [⟨name, condition, subs⟩] :=
      fun m hm => List.mem_append_left _ (hbefore m hm)
    rw [countMarkers, if_neg hany, hcount, ihs hws hfound' hbefore',
      ihr ((within_tail _ rest).trans hw) (hsubs.found_within hws hfound')
        (hsubs.again_within hbefore'),
      List.append_cons found _ (new ++ new'), ← List.append_assoc _ new, List.append_assoc before]

/-- What is counted in a tree is the tally of its walk. -/
theorem countMarkers_nil {selections : List Selection} (hd : DistinctFingerprints selections)
    {new again : List Marker} (h : Walk [] selections new again) :
    countMarkers [] selections = tally new again := by
  show countMarkers (tally [] []) selections = tally ([] ++ new) ([] ++ again)
  exact countMarkers_tally hd h (Within.refl selections) (by simp) (by simp)

end QueryShapes.Extraction
