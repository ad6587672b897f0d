/-
  What the check of response keys guarantees.

  The fields of a tree that end up in one place of the response are the merged
  fields at a path of response keys (`mergedAt`).  Where the check succeeds, any
  two of them under one key have one name and the same arguments, at every path
  (`checkMerging_agree`).
-/
import Mathlib.Data.List.Forall2
import QueryShapes.Analysis.Merging
import QueryShapes.Proofs.Except
import QueryShapes.Proofs.Literal.Equality
import QueryShapes.Proofs.Selection.Traversal

namespace QueryShapes

/-! ## The same arguments -/

namespace ArgumentValue

/-- A constant among the values is regular. -/
def Regular : ArgumentValue → Prop
  | literal l => l.Regular
  | _ => True

theorem eqv_refl {v : ArgumentValue} (h : v.Regular) : v.eqv v = true := by
  cases v with
  | literal l => exact Literal.eqv_refl h
  | parameter name => exact beq_self_eq_true name
  | documentVariable name => exact beq_self_eq_true name
  | default => rfl
  | unbound => rfl

/-- No object among the values repeats a key. -/
def DistinctKeys : ArgumentValue → Prop
  | literal l => l.DistinctKeys
  | _ => True

theorem Regular.distinctKeys {v : ArgumentValue} (h : v.Regular) : v.DistinctKeys := by
  cases v with
  | literal l => exact Literal.Regular.distinctKeys h
  | _ => trivial

theorem eqv_symm {v w : ArgumentValue} (hv : v.DistinctKeys) (hw : w.DistinctKeys)
    (h : v.eqv w = true) : w.eqv v = true := by
  cases v <;> cases w <;> simp only [eqv, Bool.false_eq_true, beq_iff_eq] at h ⊢
  · exact Literal.eqv_symm hv hw h
  · exact h.symm
  · exact h.symm

theorem eqv_trans {v w x : ArgumentValue} (hv : v.DistinctKeys) (h : v.eqv w = true)
    (h' : w.eqv x = true) : v.eqv x = true := by
  cases v <;> cases w <;> simp only [eqv, Bool.false_eq_true, beq_iff_eq] at h <;>
    cases x <;> simp only [eqv, Bool.false_eq_true, beq_iff_eq] at h' ⊢
  · exact Literal.eqv_trans hv h h'
  · exact h.trans h'
  · exact h.trans h'

end ArgumentValue

/-- Two arguments of one name that are bound to the same value. -/
def FieldArgument.Same (a b : FieldArgument) : Prop :=
  a.name = b.name ∧ a.value.eqv b.value = true

namespace Field

/-- Argument by argument, two fields are called the same way. -/
def SameArguments (f g : Field) : Prop := List.Forall₂ FieldArgument.Same f.arguments g.arguments

/-- No argument of the field is bound to an irregular constant. -/
def Regular (f : Field) : Prop := ∀ a ∈ f.arguments, a.value.Regular

theorem SameArguments.exists_same {f g : Field} (h : f.SameArguments g) {a : FieldArgument}
    (ha : a ∈ f.arguments) : ∃ b ∈ g.arguments, a.Same b := by
  unfold SameArguments at h
  generalize f.arguments = as at h ha
  generalize g.arguments = bs at h
  induction h with
  | nil => cases ha
  | cons hab _ ih =>
    rcases List.mem_cons.mp ha with rfl | ha
    · exact ⟨_, List.mem_cons_self, hab⟩
    · obtain ⟨b, hb, hsame⟩ := ih ha
      exact ⟨b, List.mem_cons_of_mem _ hb, hsame⟩

theorem SameArguments.refl {f : Field} (h : f.Regular) : f.SameArguments f :=
  List.forall₂_same.mpr fun a ha => ⟨rfl, ArgumentValue.eqv_refl (h a ha)⟩

theorem SameArguments.symm {f g : Field} (hf : f.Regular) (hg : g.Regular)
    (h : f.SameArguments g) : g.SameArguments f := by
  have hf : List.Forall₂ (fun a b => a.value.Regular ∧ a.Same b) f.arguments g.arguments :=
    (List.forall₂_and_left _ _).mpr ⟨hf, h⟩
  have hg : List.Forall₂ (fun b a => b.value.Regular ∧ a.value.Regular ∧ a.Same b) g.arguments
      f.arguments := (List.forall₂_and_left _ _).mpr ⟨hg, hf.flip⟩
  exact hg.imp fun b a ⟨hb, ha, hname, hv⟩ =>
    ⟨hname.symm, ArgumentValue.eqv_symm ha.distinctKeys hb.distinctKeys hv⟩

theorem SameArguments.trans {f g h : Field} (hf : f.Regular) (hfg : f.SameArguments g)
    (hgh : g.SameArguments h) : f.SameArguments h := by
  have hfg : List.Forall₂ (fun a b => a.value.Regular ∧ a.Same b) f.arguments g.arguments :=
    (List.forall₂_and_left _ _).mpr ⟨hf, hfg⟩
  unfold SameArguments at hgh ⊢
  generalize f.arguments = as at hfg
  generalize g.arguments = bs at hfg hgh
  generalize h.arguments = cs at hgh
  induction hfg generalizing cs with
  | nil => exact hgh
  | cons hab _ ih =>
    cases hgh with
    | cons hbc hrest =>
      obtain ⟨ha, hname, hv⟩ := hab
      exact .cons ⟨hname.trans hbc.1, ArgumentValue.eqv_trans ha.distinctKeys hv hbc.2⟩ (ih _ hrest)

end Field

namespace Analysis

open Selection

theorem same_of_allEqv {as bs : List FieldArgument} (h : FieldArgument.allEqv as bs = true) :
    List.Forall₂ FieldArgument.Same as bs := by
  induction as generalizing bs with
  | nil =>
    cases bs with
    | nil => exact .nil
    | cons b bs => simp [FieldArgument.allEqv] at h
  | cons a as ih =>
    cases bs with
    | nil => simp [FieldArgument.allEqv] at h
    | cons b bs =>
      simp only [FieldArgument.allEqv, FieldArgument.eqv, Bool.and_eq_true, beq_iff_eq] at h
      exact .cons ⟨h.1.1.1.1, h.1.1.2⟩ (ih h.2)

/-- Fields that do not conflict have one name and the same arguments. -/
theorem agree_of_not_conflicts {f g : Field} (h : conflicts f g = false) :
    g.name = f.name ∧ g.SameArguments f := by
  simp only [conflicts, Bool.or_eq_false_iff, bne_eq_false_iff_eq, Bool.not_eq_false'] at h
  exact ⟨h.1, same_of_allEqv h.2⟩

/-! ## Merged fields -/

/-- The fields that are merged at a path of response keys below the given ones. -/
def mergedAt (fields : List CollectedField) : List String → List CollectedField
  | [] => fields
  | key :: path => mergedAt (collectFields (mergedSelections (underKey key fields))) path

theorem mergedAt_concat (fields : List CollectedField) (path : List String) (key : String) :
    mergedAt fields (path ++ [key]) =
      collectFields (mergedSelections (underKey key (mergedAt fields path))) := by
  induction path generalizing fields with
  | nil => rfl
  | cons k path ih => exact ih _

theorem collectFields_append (as bs : List Selection) :
    collectFields (as ++ bs) = collectFields as ++ collectFields bs := by
  induction as with
  | nil => simp [collectFields]
  | cons a as ih => cases a <;> simp [collectFields, ih]

theorem collectFields_mergedSelections (fields : List CollectedField) :
    collectFields (mergedSelections fields) = fields.flatMap fun p => collectFields p.2 := by
  induction fields with
  | nil => simp [mergedSelections, collectFields]
  | cons p rest ih =>
    simp only [mergedSelections] at ih
    simp [mergedSelections, collectFields_append, ih]

/-- A change of fields and of what is selected below them that collection does not see changes
    the merged fields in the same way at every path. -/
theorem mergedAt_map (change : Field → Field) (below : Field → List Selection → List Selection)
    (hkey : ∀ f, (change f).responseKey = f.responseKey)
    (hcollect : ∀ f subs, collectFields (below f subs) =
      (collectFields subs).map fun p => (change p.1, below p.1 p.2))
    (fields : List CollectedField) (path : List String) :
    mergedAt (fields.map fun p => (change p.1, below p.1 p.2)) path =
      (mergedAt fields path).map fun p => (change p.1, below p.1 p.2) := by
  induction path generalizing fields with
  | nil => rfl
  | cons key path ih =>
    rw [mergedAt, mergedAt, ← ih]
    congr 1
    rw [collectFields_mergedSelections, collectFields_mergedSelections, underKey, underKey,
      List.filter_map, List.flatMap_map, List.map_flatMap]
    simp only [hcollect]
    have hfilter : (fun p : CollectedField => p.1.responseKey == key) ∘
        (fun p : CollectedField => (change p.1, below p.1 p.2)) =
        fun p => p.1.responseKey == key := by
      funext p
      simp only [Function.comp_apply, hkey]
    rw [hfilter]

theorem within_of_mem_collectFields {f : Field} {subs selections : List Selection}
    (h : (f, subs) ∈ collectFields selections) :
    f ∈ allFields selections ∧ ∀ g ∈ allFields subs, g ∈ allFields selections := by
  induction selections using listInduction with
  | nil => simp [collectFields] at h
  | field f' subs' rest ihs ihr =>
    simp only [collectFields, List.mem_cons, Prod.mk.injEq] at h
    simp only [allFields, List.mem_cons, List.mem_append]
    rcases h with ⟨rfl, rfl⟩ | h
    · exact ⟨Or.inl rfl, fun g hg => Or.inr (Or.inl hg)⟩
    · exact ⟨Or.inr (Or.inr (ihr h).1), fun g hg => Or.inr (Or.inr ((ihr h).2 g hg))⟩
  | spread name condition rest ihr =>
    simp only [collectFields] at h
    simp only [allFields]
    exact ihr h
  | inline condition subs' rest ihs ihr =>
    simp only [collectFields, List.mem_append] at h
    simp only [allFields, List.mem_append]
    rcases h with h | h
    · exact ⟨Or.inl (ihs h).1, fun g hg => Or.inl ((ihs h).2 g hg)⟩
    · exact ⟨Or.inr (ihr h).1, fun g hg => Or.inr ((ihr h).2 g hg)⟩
  | marker name condition subs' rest ihs ihr =>
    simp only [collectFields, List.mem_append] at h
    simp only [allFields, List.mem_append]
    rcases h with h | h
    · exact ⟨Or.inl (ihs h).1, fun g hg => Or.inl ((ihs h).2 g hg)⟩
    · exact ⟨Or.inr (ihr h).1, fun g hg => Or.inr ((ihr h).2 g hg)⟩

theorem mem_of_mem_allFields_mergedSelections {fields : List CollectedField} {g : Field}
    (h : g ∈ allFields (mergedSelections fields)) : ∃ p ∈ fields, g ∈ allFields p.2 := by
  induction fields with
  | nil => simp [mergedSelections, allFields] at h
  | cons p rest ih =>
    rw [mergedSelections, List.flatMap_cons, allFields_append, List.mem_append] at h
    rcases h with h | h
    · exact ⟨p, List.mem_cons_self, h⟩
    · obtain ⟨q, hq, hg⟩ := ih h
      exact ⟨q, List.mem_cons_of_mem _ hq, hg⟩

/-- Merged fields are fields of the tree. -/
theorem mem_allFields_of_mem_mergedAt {selections : List Selection} {path : List String}
    {p : CollectedField} (h : p ∈ mergedAt (collectFields selections) path) :
    p.1 ∈ allFields selections := by
  induction path generalizing selections with
  | nil => exact (within_of_mem_collectFields h).1
  | cons key path ih =>
    obtain ⟨q, hq, hp⟩ := mem_of_mem_allFields_mergedSelections (ih h)
    exact (within_of_mem_collectFields (List.mem_filter.mp hq).1).2 _ hp

/-! ## The check -/

theorem checkMerging_cons {parent : String} {f : Field} {subs : List Selection}
    {rest : List CollectedField} :
    checkMerging parent ((f, subs) :: rest) = .ok () ↔
      (∀ p ∈ underKey f.responseKey rest, conflicts f p.1 = false) ∧
        checkMerging f.type.innerName (collectFields (subs ++
          mergedSelections (underKey f.responseKey rest))) = .ok () ∧
        checkMerging parent (notUnderKey f.responseKey rest) = .ok () := by
  rw [checkMerging]
  dsimp only
  split
  · rename_i hany
    obtain ⟨p, hp, hconflict⟩ := List.any_eq_true.mp hany
    refine iff_of_false (by simp [bind_eq_ok]) fun h => ?_
    rw [h.1 p hp] at hconflict
    cases hconflict
  · rename_i hany
    have hsame : ∀ p ∈ underKey f.responseKey rest, conflicts f p.1 = false := by simpa using hany
    rw [bind_eq_ok]
    constructor
    · rintro ⟨⟨⟩, hbelow, hrest⟩
      exact ⟨hsame, hbelow, hrest⟩
    · rintro ⟨-, hbelow, hrest⟩
      exact ⟨(), hbelow, hrest⟩

theorem underKey_notUnderKey {key other : String} (h : key ≠ other)
    (fields : List CollectedField) :
    underKey key (notUnderKey other fields) = underKey key fields := by
  unfold underKey notUnderKey
  rw [List.filter_filter]
  refine List.filter_congr fun p _ => ?_
  by_cases hp : p.1.responseKey = key <;> simp [hp, h]

/-- The fields under one key do not conflict with the first of them, and what is selected below
    them is checked in turn. -/
theorem checkMerging_underKey {parent : String} {fields : List CollectedField}
    (h : checkMerging parent fields = .ok ()) (key : String) :
    (∀ first rest, underKey key fields = first :: rest →
        ∀ p ∈ rest, conflicts first.1 p.1 = false) ∧
      ∃ parent', checkMerging parent' (collectFields (mergedSelections (underKey key fields))) =
        .ok () := by
  induction hn : fields.length using Nat.strongRecOn generalizing fields with
  | ind n ih =>
    cases fields with
    | nil =>
      refine ⟨fun first rest hnil => by simp [underKey] at hnil, "", ?_⟩
      simp [underKey, mergedSelections, collectFields, checkMerging]
    | cons p rest =>
      obtain ⟨f, subs⟩ := p
      obtain ⟨hsame, hbelow, hrest⟩ := checkMerging_cons.mp h
      by_cases hkey : f.responseKey = key
      · subst hkey
        have hunder : underKey f.responseKey ((f, subs) :: rest) =
            (f, subs) :: underKey f.responseKey rest := by
          simp [underKey]
        rw [hunder]
        refine ⟨fun first others hcons => ?_, f.type.innerName, hbelow⟩
        cases hcons
        exact hsame
      · have hunder : underKey key ((f, subs) :: rest) =
            underKey key (notUnderKey f.responseKey rest) := by
          rw [underKey_notUnderKey (Ne.symm hkey)]
          simp [underKey, hkey]
        rw [hunder]
        refine ih _ ?_ hrest rfl
        have := List.length_filter_le (fun p : CollectedField => p.1.responseKey != f.responseKey)
          rest
        rw [← hn, notUnderKey, List.length_cons]
        omega

theorem checkMerging_mergedAt {parent : String} {fields : List CollectedField}
    (h : checkMerging parent fields = .ok ()) (path : List String) :
    ∃ parent', checkMerging parent' (mergedAt fields path) = .ok () := by
  induction path generalizing parent fields with
  | nil => exact ⟨parent, h⟩
  | cons key path ih =>
    obtain ⟨-, parent', hbelow⟩ := checkMerging_underKey h key
    exact ih hbelow

/-- The fields that are merged under one key do not conflict with the first of them. -/
theorem checkMerging_first {parent : String} {fields : List CollectedField}
    (h : checkMerging parent fields = .ok ()) {path : List String} {p : CollectedField}
    (hp : p ∈ mergedAt fields path) :
    ∃ first ∈ mergedAt fields path, ∀ q ∈ mergedAt fields path,
      q.1.responseKey = p.1.responseKey → q = first ∨ conflicts first.1 q.1 = false := by
  obtain ⟨parent', h⟩ := checkMerging_mergedAt h path
  obtain ⟨hfirst, -⟩ := checkMerging_underKey h p.1.responseKey
  have hmem : ∀ q ∈ mergedAt fields path, q.1.responseKey = p.1.responseKey →
      q ∈ underKey p.1.responseKey (mergedAt fields path) :=
    fun q hq hkey => List.mem_filter.mpr ⟨hq, beq_iff_eq.mpr hkey⟩
  cases hunder : underKey p.1.responseKey (mergedAt fields path) with
  | nil =>
    have hp' := hmem p hp rfl
    rw [hunder] at hp'
    cases hp'
  | cons first rest =>
    have hmemFirst : first ∈ underKey p.1.responseKey (mergedAt fields path) :=
      hunder ▸ List.mem_cons_self
    refine ⟨first, (List.mem_filter.mp hmemFirst).1, fun q hq hkey => ?_⟩
    have hq' := hmem q hq hkey
    rw [hunder] at hq'
    exact (List.mem_cons.mp hq').imp_right (hfirst first rest hunder q)

/-- Any two fields that are merged under one key have one name. -/
theorem checkMerging_name_eq {parent : String} {fields : List CollectedField}
    (h : checkMerging parent fields = .ok ()) {path : List String} {p q : CollectedField}
    (hp : p ∈ mergedAt fields path) (hq : q ∈ mergedAt fields path)
    (hkey : p.1.responseKey = q.1.responseKey) : p.1.name = q.1.name := by
  obtain ⟨first, -, hfirst⟩ := checkMerging_first h hp
  have hname : ∀ r ∈ mergedAt fields path, r.1.responseKey = p.1.responseKey →
      r.1.name = first.1.name := by
    intro r hr hrkey
    rcases hfirst r hr hrkey with rfl | hr
    · rfl
    · exact (agree_of_not_conflicts hr).1
  exact (hname p hp rfl).trans (hname q hq hkey.symm).symm

/-- Any two fields that are merged under one key have one name and the same arguments. -/
theorem checkMerging_agree {parent : String} {fields : List CollectedField}
    (h : checkMerging parent fields = .ok ()) {path : List String}
    (hreg : ∀ p ∈ mergedAt fields path, p.1.Regular) {p q : CollectedField}
    (hp : p ∈ mergedAt fields path) (hq : q ∈ mergedAt fields path)
    (hkey : p.1.responseKey = q.1.responseKey) :
    p.1.name = q.1.name ∧ p.1.SameArguments q.1 := by
  obtain ⟨first, hmem, hfirst⟩ := checkMerging_first h hp
  have hagree : ∀ r ∈ mergedAt fields path, r.1.responseKey = p.1.responseKey →
      r.1.SameArguments first.1 := by
    intro r hr hrkey
    rcases hfirst r hr hrkey with rfl | hr'
    · exact .refl (hreg r hr)
    · exact (agree_of_not_conflicts hr').2
  have hpq := (hagree q hq hkey.symm).symm (hreg q hq) (hreg first hmem)
  exact ⟨checkMerging_name_eq h hp hq hkey, (hagree p hp rfl).trans (hreg p hp) hpq⟩

end Analysis

end QueryShapes
