/-
  Which markers become definitions, and under which names.

  A marker is lifted if it has a name, or is written at two places (`IsLifted`).
  Naming the groups of a tree gives every lifted marker its name
  (`name?_named_tally`), unless two of them would get the same one: then, and only
  then, it fails, with that name (`nameGroups_tally`).
-/
import QueryShapes.Proofs.Extraction.Walk

namespace QueryShapes.Extraction

open Selection

/-- The name of the definition that a marker is lifted to. -/
def definitionName (m : Marker) : String :=
  m.name.getD (derivedName m.typeCondition (fingerprint m.typeCondition m.selections))

/-- The marker has a name of its own, or is written at two places. -/
def IsLifted (selections : List Selection) (m : Marker) : Prop :=
  m.name.isSome = true ∨ Repeated selections m

/-- Two markers of different names or contents are lifted to definitions of one name. -/
def NameClash (selections : List Selection) (name : String) : Prop :=
  ∃ m ∈ allMarkers selections, ∃ m' ∈ allMarkers selections, m ≠ m' ∧
    IsLifted selections m ∧ IsLifted selections m' ∧ definitionName m = name ∧
    definitionName m' = name

/-! ## Naming groups -/

/-- The names of the groups that become definitions. -/
def named (groups : List Group) : Lifted :=
  (groups.filter (·.isLifted)).map fun g => (g.key, g.definitionName)

theorem mem_named_iff {groups : List Group} {p : GroupKey × String} :
    p ∈ named groups ↔ ∃ g ∈ groups, g.isLifted = true ∧ (g.key, g.definitionName) = p := by
  simp only [named, List.mem_map, List.mem_filter, and_assoc]

theorem named_cons_of_lifted {g : Group} (hg : g.isLifted = true) (rest : List Group) :
    named (g :: rest) = (g.key, g.definitionName) :: named rest := by
  rw [named, List.filter_cons_of_pos hg, List.map_cons, named]

theorem named_cons_of_not_lifted {g : Group} (hg : ¬ g.isLifted = true) (rest : List Group) :
    named (g :: rest) = named rest := by
  rw [named, List.filter_cons_of_neg hg, named]

/-- Naming that succeeds names every group that becomes a definition. -/
theorem nameGroups_eq_ok {lifted lifted' : Lifted} {groups : List Group}
    (h : nameGroups lifted groups = .ok lifted') : lifted' = lifted ++ named groups := by
  induction groups generalizing lifted with
  | nil =>
    rw [nameGroups, Except.ok.injEq] at h
    rw [← h, named, List.filter_nil, List.map_nil, List.append_nil]
  | cons g rest ih =>
    rw [nameGroups] at h
    by_cases hg : g.isLifted = true
    · rw [if_neg (by simp [hg])] at h
      split at h
      · cases h
      · rw [ih h, named_cons_of_lifted hg, List.append_cons lifted _ (named rest)]
    · rw [if_pos (by simp [hg])] at h
      rw [ih h, named_cons_of_not_lifted hg]

/-- Naming that fails has come to a group whose name is taken. -/
theorem nameGroups_eq_error {lifted : Lifted} {groups : List Group} {e : CompileError}
    (h : nameGroups lifted groups = .error e) :
    ∃ before g after, groups = before ++ g :: after ∧ g.isLifted = true ∧
      e = .fragmentNameConflict g.definitionName ∧
      g.definitionName ∈ (lifted ++ named before).map Prod.snd := by
  induction groups generalizing lifted with
  | nil => cases h
  | cons g rest ih =>
    rw [nameGroups] at h
    by_cases hg : g.isLifted = true
    · rw [if_neg (by simp [hg])] at h
      split at h
      · rename_i htaken
        cases h
        obtain ⟨p, hp, hname⟩ := List.any_eq_true.mp htaken
        refine ⟨[], g, rest, rfl, hg, rfl, ?_⟩
        exact List.mem_map.mpr ⟨p, List.mem_append_left _ hp, of_decide_eq_true hname⟩
      · obtain ⟨before, g', after, rfl, hg', he, hname⟩ := ih h
        refine ⟨g :: before, g', after, rfl, hg', he, ?_⟩
        rw [named_cons_of_lifted hg, List.append_cons lifted _ (named before)]
        exact hname
    · rw [if_pos (by simp [hg])] at h
      obtain ⟨before, g', after, rfl, hg', he, hname⟩ := ih h
      refine ⟨g :: before, g', after, rfl, hg', he, ?_⟩
      rw [named_cons_of_not_lifted hg]
      exact hname

/-! ## Naming the groups of a tree -/

/-- No two markers of a tree are lifted under one name. -/
def NamedApart (lifted : Lifted) (whole : List Selection) : Prop :=
  ∀ m ∈ allMarkers whole, ∀ m' ∈ allMarkers whole, ∀ name,
    lifted.name? (markerKey m) = some name → lifted.name? (markerKey m') = some name → m = m'

section Tally

variable {selections : List Selection} {new again : List Marker}

theorem isLifted_groupOf (hd : DistinctFingerprints selections)
    (h : Walk [] selections new again) {m : Marker} (hm : m ∈ new) :
    (groupOf again m).isLifted = true ↔ IsLifted selections m := by
  have hagain : 0 < (again.map markerKey).count (markerKey m) ↔ m ∈ again := by
    rw [List.count_pos_iff, List.mem_map]
    constructor
    · rintro ⟨m', hm', hkey⟩
      have hfound := h.mem_found hm'
      rw [← hd.eq_of_markerKey (h.mem_allMarkers hfound) (h.mem_allMarkers hm) hkey]
      exact hm'
    · intro hm
      exact ⟨m, hm, rfl⟩
  rw [IsLifted, ← h.mem_again_iff, ← hagain]
  show (m.name.isSome || decide (2 ≤ 1 + (again.map markerKey).count (markerKey m))) = true ↔ _
  rw [Bool.or_eq_true, decide_eq_true_eq]
  refine or_congr_right ?_
  omega

theorem mem_named_tally_iff (hd : DistinctFingerprints selections)
    (h : Walk [] selections new again) {p : GroupKey × String} :
    p ∈ named (tally new again) ↔
      ∃ m ∈ allMarkers selections, IsLifted selections m ∧ (markerKey m, definitionName m) = p := by
  rw [mem_named_iff, tally]
  simp only [List.mem_map, exists_exists_and_eq_and, ← h.mem_iff]
  refine exists_congr fun m => and_congr_right fun hm => ?_
  rw [isLifted_groupOf hd h hm]
  rfl

/-- The lifted markers are found under their names. -/
theorem name?_named_tally (hd : DistinctFingerprints selections)
    (h : Walk [] selections new again) {m : Marker} (hm : m ∈ allMarkers selections)
    {name : String} :
    (named (tally new again)).name? (markerKey m) = some name ↔
      IsLifted selections m ∧ definitionName m = name := by
  have hfound : ∀ {name : String}, (named (tally new again)).name? (markerKey m) = some name →
      IsLifted selections m ∧ definitionName m = name := by
    intro name hname
    obtain ⟨m', hm', hlifted, hp⟩ := (mem_named_tally_iff hd h).mp (mem_of_lookup hname)
    obtain ⟨hkey, hname'⟩ := Prod.mk.inj hp
    rw [hd.eq_of_markerKey hm' hm hkey] at hlifted hname'
    exact ⟨hlifted, hname'⟩
  refine ⟨hfound, ?_⟩
  rintro ⟨hlifted, rfl⟩
  have hmem := (mem_named_tally_iff hd h).mpr ⟨m, hm, hlifted, rfl⟩
  have hsome : ((named (tally new again)).name? (markerKey m)).isSome = true :=
    List.lookup_isSome_iff.mpr ⟨_, hmem, beq_self_eq_true _⟩
  obtain ⟨name, hname⟩ := Option.isSome_iff_exists.mp hsome
  rw [hname, (hfound hname).2]

/-- What a walk meets again is lifted. -/
theorem isSome_name?_of_again (hd : DistinctFingerprints selections)
    (h : Walk [] selections new again) {m : Marker} (hm : m ∈ again) :
    ((named (tally new again)).name? (markerKey m)).isSome = true := by
  have hlifted : IsLifted selections m := Or.inr (h.mem_again_iff.mp hm)
  rw [(name?_named_tally hd h (h.mem_iff.mp (h.mem_found hm))).mpr ⟨hlifted, rfl⟩]
  rfl

/-- Naming that succeeds gives no two markers of a tree one name. -/
theorem namedApart (hd : DistinctFingerprints selections) {groups : List Group} {lifted : Lifted}
    (h : nameGroups [] groups = .ok lifted) : NamedApart lifted selections := by
  intro m hm m' hm' name hname hname'
  have hkey := key_eq_of_name? (nodup_nameGroups h List.nodup_nil) hname hname'
  exact hd.eq_of_markerKey hm hm' hkey

/-- Naming the groups of a tree succeeds and no two names clash, or it fails with a name that
    clashes. -/
theorem nameGroups_tally (hd : DistinctFingerprints selections)
    (h : Walk [] selections new again) :
    (nameGroups [] (tally new again) = .ok (named (tally new again)) ∧
        ∀ name, ¬ NameClash selections name) ∨
      ∃ name, nameGroups [] (tally new again) = .error (.fragmentNameConflict name) ∧
        NameClash selections name := by
  cases hnames : nameGroups [] (tally new again) with
  | ok lifted =>
    have hlifted := nameGroups_eq_ok hnames
    rw [List.nil_append] at hlifted
    subst hlifted
    refine Or.inl ⟨rfl, ?_⟩
    rintro name ⟨m, hm, m', hm', hne, hl, hl', hname, hname'⟩
    exact hne (namedApart hd hnames m hm m' hm' name
      ((name?_named_tally hd h hm).mpr ⟨hl, hname⟩)
      ((name?_named_tally hd h hm').mpr ⟨hl', hname'⟩))
  | error e =>
    obtain ⟨before, g, after, hgroups, hg, rfl, hname⟩ := nameGroups_eq_error hnames
    refine Or.inr ⟨g.definitionName, rfl, ?_⟩
    rw [tally] at hgroups
    obtain ⟨as, bs, rfl, rfl, hbs⟩ := List.map_eq_append_iff.mp hgroups
    obtain ⟨m, bs, rfl, rfl, -⟩ := List.map_eq_cons_iff.mp hbs
    rw [List.nil_append, List.mem_map] at hname
    obtain ⟨p, hp, hname⟩ := hname
    obtain ⟨g, hg', hl, rfl⟩ := mem_named_iff.mp hp
    obtain ⟨m', hm', rfl⟩ := List.mem_map.mp hg'
    have hn : (as ++ m :: bs).Nodup := h.nodup List.nodup_nil
    have hmem : m ∈ as ++ m :: bs := List.mem_append_right _ List.mem_cons_self
    have hmem' : m' ∈ as ++ m :: bs := List.mem_append_left _ hm'
    refine ⟨m, h.mem_allMarkers hmem, m', h.mem_allMarkers hmem', ?_,
      (isLifted_groupOf hd h hmem).mp hg, (isLifted_groupOf hd h hmem').mp hl, rfl, hname⟩
    rintro rfl
    exact (List.nodup_append.mp hn).2.2 m hm' m List.mem_cons_self rfl

end Tally

end QueryShapes.Extraction
