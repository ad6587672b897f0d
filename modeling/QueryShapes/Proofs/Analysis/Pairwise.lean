/-
  The check of response keys decides the pairwise rule.

  The rule (`PairwiseMerging`) is about two fields at a time: any two fields of a
  list under one response key have one name and equal arguments, and what is
  selected below the two together keeps to the rule again, as does what is
  selected below every single field.  The check goes group by group instead: it
  compares the fields under a key with the first of them only, and then takes
  everything that is selected below the group at once.  A rule about pairs holds
  of a group as soon as it holds of any two of its lists
  (`pairwiseMerging_merged_iff`), so the two say the same (`checkMerging_iff`).

  Equality is the one of the check: it compares floats as numbers and objects as
  unordered maps.  It is not reflexive on a NaN, which neither side needs.
-/
import QueryShapes.Proofs.Analysis.Merging
import QueryShapes.Proofs.Analysis.Typing

namespace QueryShapes

/-! ## Equal arguments -/

namespace FieldArgument

/-- No object among the constants of the argument repeats a key. -/
structure DistinctKeys (a : FieldArgument) : Prop where
  value : a.value.DistinctKeys
  declaredDefault : ∀ l, a.declaredDefault = some l → l.DistinctKeys

theorem optionEqv_symm {l m : Option Literal} (hl : ∀ a, l = some a → a.DistinctKeys)
    (hm : ∀ a, m = some a → a.DistinctKeys) (h : Literal.optionEqv l m = true) :
    Literal.optionEqv m l = true := by
  cases l with
  | none =>
    cases m with
    | none => rfl
    | some b => cases h
  | some a =>
    cases m with
    | none => cases h
    | some b => exact Literal.eqv_symm (hl a rfl) (hm b rfl) h

theorem optionEqv_trans {l m n : Option Literal} (hl : ∀ a, l = some a → a.DistinctKeys)
    (h : Literal.optionEqv l m = true) (h' : Literal.optionEqv m n = true) :
    Literal.optionEqv l n = true := by
  cases l with
  | none =>
    cases m with
    | none => exact h'
    | some b => cases h
  | some a =>
    cases m with
    | none => cases h
    | some b =>
      cases n with
      | none => cases h'
      | some c => exact Literal.eqv_trans (hl a rfl) h h'

theorem eqv_iff {a b : FieldArgument} :
    a.eqv b = true ↔ a.name = b.name ∧ a.type = b.type ∧ a.value.eqv b.value = true ∧
      Literal.optionEqv a.declaredDefault b.declaredDefault = true := by
  simp only [eqv, Bool.and_eq_true, beq_iff_eq, and_assoc]

theorem eqv_symm {a b : FieldArgument} (ha : a.DistinctKeys) (hb : b.DistinctKeys)
    (h : a.eqv b = true) : b.eqv a = true := by
  obtain ⟨hname, htype, hvalue, hdefault⟩ := eqv_iff.mp h
  exact eqv_iff.mpr ⟨hname.symm, htype.symm, ArgumentValue.eqv_symm ha.value hb.value hvalue,
    optionEqv_symm ha.declaredDefault hb.declaredDefault hdefault⟩

theorem eqv_trans {a b c : FieldArgument} (ha : a.DistinctKeys) (h : a.eqv b = true)
    (h' : b.eqv c = true) : a.eqv c = true := by
  obtain ⟨hname, htype, hvalue, hdefault⟩ := eqv_iff.mp h
  obtain ⟨hname', htype', hvalue', hdefault'⟩ := eqv_iff.mp h'
  exact eqv_iff.mpr ⟨hname.trans hname', htype.trans htype',
    ArgumentValue.eqv_trans ha.value hvalue hvalue',
    optionEqv_trans ha.declaredDefault hdefault hdefault'⟩

theorem allEqv_symm {as bs : List FieldArgument} (ha : ∀ a ∈ as, a.DistinctKeys)
    (hb : ∀ b ∈ bs, b.DistinctKeys) (h : allEqv as bs = true) : allEqv bs as = true := by
  induction as generalizing bs with
  | nil =>
    cases bs with
    | nil => rfl
    | cons b bs => cases h
  | cons a as ih =>
    cases bs with
    | nil => cases h
    | cons b bs =>
      rw [List.forall_mem_cons] at ha hb
      rw [allEqv, Bool.and_eq_true] at h ⊢
      exact ⟨eqv_symm ha.1 hb.1 h.1, ih ha.2 hb.2 h.2⟩

theorem allEqv_trans {as bs cs : List FieldArgument} (ha : ∀ a ∈ as, a.DistinctKeys)
    (h : allEqv as bs = true) (h' : allEqv bs cs = true) : allEqv as cs = true := by
  induction as generalizing bs cs with
  | nil =>
    cases bs with
    | nil => exact h'
    | cons b bs => cases h
  | cons a as ih =>
    cases bs with
    | nil => cases h
    | cons b bs =>
      cases cs with
      | nil => cases h'
      | cons c cs =>
        rw [List.forall_mem_cons] at ha
        rw [allEqv, Bool.and_eq_true] at h h' ⊢
        exact ⟨eqv_trans ha.1 h.1 h'.1, ih ha.2 h.2 h'.2⟩

end FieldArgument

namespace Field

/-- No object among the constants of the field's arguments repeats a key. -/
def DistinctKeys (f : Field) : Prop := ∀ a ∈ f.arguments, a.DistinctKeys

/-- Two fields of one name with equal arguments. -/
def SameCall (f g : Field) : Prop :=
  f.name = g.name ∧ FieldArgument.allEqv f.arguments g.arguments = true

theorem SameCall.symm {f g : Field} (hf : f.DistinctKeys) (hg : g.DistinctKeys)
    (h : f.SameCall g) : g.SameCall f :=
  ⟨h.1.symm, FieldArgument.allEqv_symm hf hg h.2⟩

theorem SameCall.trans {f g h : Field} (hf : f.DistinctKeys) (hfg : f.SameCall g)
    (hgh : g.SameCall h) : f.SameCall h :=
  ⟨hfg.1.trans hgh.1, FieldArgument.allEqv_trans hf hfg.2 hgh.2⟩

end Field

namespace Analysis

open Selection

theorem conflicts_eq_false_iff {f g : Field} : conflicts f g = false ↔ g.SameCall f := by
  simp only [conflicts, Field.SameCall, Bool.or_eq_false_iff, bne_eq_false_iff_eq,
    Bool.not_eq_false']

/-! ## The rule -/

/-- What is collected from a list merges pair by pair: any two fields under one response key have
    one name and equal arguments, and what is selected below the two merges again; so does what
    is selected below each field alone. -/
inductive PairwiseMerging : List CollectedField → Prop
  | intro {fields : List CollectedField}
      (own : ∀ p ∈ fields, PairwiseMerging (collectFields p.2))
      (call : ∀ p q, [p, q].Sublist fields → p.1.responseKey = q.1.responseKey →
        p.1.SameCall q.1)
      (below : ∀ p q, [p, q].Sublist fields → p.1.responseKey = q.1.responseKey →
        PairwiseMerging (collectFields (p.2 ++ q.2))) : PairwiseMerging fields

/-- Two fields that may stand in one list: under one response key they are the same call, and what
    is selected below them merges. -/
def Compatible (p q : CollectedField) : Prop :=
  p.1.responseKey = q.1.responseKey →
    p.1.SameCall q.1 ∧ PairwiseMerging (collectFields (p.2 ++ q.2))

theorem pairwiseMerging_iff {fields : List CollectedField} :
    PairwiseMerging fields ↔
      (∀ p ∈ fields, PairwiseMerging (collectFields p.2)) ∧ fields.Pairwise Compatible := by
  rw [List.pairwise_iff_forall_sublist]
  constructor
  · rintro ⟨own, call, below⟩
    exact ⟨own, fun hpq hkey => ⟨call _ _ hpq hkey, below _ _ hpq hkey⟩⟩
  · rintro ⟨own, hpairs⟩
    exact .intro own (fun p q hpq hkey => (hpairs hpq hkey).1)
      (fun p q hpq hkey => (hpairs hpq hkey).2)

theorem pairwiseMerging_nil : PairwiseMerging [] :=
  pairwiseMerging_iff.mpr ⟨fun _ hp => absurd hp List.not_mem_nil, .nil⟩

theorem PairwiseMerging.sublist {fields fields' : List CollectedField}
    (h : PairwiseMerging fields) (hs : fields'.Sublist fields) : PairwiseMerging fields' := by
  obtain ⟨own, hpairs⟩ := pairwiseMerging_iff.mp h
  exact pairwiseMerging_iff.mpr ⟨fun p hp => own p (hs.subset hp), hpairs.sublist hs⟩

theorem pairwiseMerging_append_iff {as bs : List CollectedField} :
    PairwiseMerging (as ++ bs) ↔
      PairwiseMerging as ∧ PairwiseMerging bs ∧ ∀ p ∈ as, ∀ q ∈ bs, Compatible p q := by
  rw [pairwiseMerging_iff, pairwiseMerging_iff, pairwiseMerging_iff, List.forall_mem_append,
    List.pairwise_append]
  tauto

/-- What is selected below a group of fields merges exactly if it merges below each of them and
    below any two of them. -/
theorem pairwiseMerging_merged_iff {fields : List CollectedField} :
    PairwiseMerging (collectFields (mergedSelections fields)) ↔
      (∀ p ∈ fields, PairwiseMerging (collectFields p.2)) ∧
        fields.Pairwise fun p q => PairwiseMerging (collectFields (p.2 ++ q.2)) := by
  induction fields with
  | nil =>
    rw [mergedSelections, List.flatMap_nil, collectFields]
    exact iff_of_true pairwiseMerging_nil ⟨fun p hp => absurd hp List.not_mem_nil, .nil⟩
  | cons p rest ih =>
    have hcons : collectFields (mergedSelections (p :: rest)) =
        collectFields p.2 ++ collectFields (mergedSelections rest) := by
      rw [collectFields_mergedSelections, collectFields_mergedSelections, List.flatMap_cons]
    rw [hcons, pairwiseMerging_append_iff, ih, List.forall_mem_cons, List.pairwise_cons]
    -- the fields below the first and below the later ones are compatible list by list
    have hbelow : (∀ a ∈ collectFields p.2, ∀ b ∈ collectFields (mergedSelections rest),
        Compatible a b) ↔
        ∀ q ∈ rest, ∀ a ∈ collectFields p.2, ∀ b ∈ collectFields q.2, Compatible a b := by
      simp only [collectFields_mergedSelections, List.mem_flatMap]
      constructor
      · intro h q hq a ha b hb
        exact h a ha b ⟨q, hq, hb⟩
      · rintro h a ha b ⟨q, hq, hb⟩
        exact h q hq a ha b hb
    rw [hbelow]
    constructor
    · rintro ⟨hp, ⟨hown, hpairs⟩, hcompatible⟩
      refine ⟨⟨hp, hown⟩, fun q hq => ?_, hpairs⟩
      rw [collectFields_append, pairwiseMerging_append_iff]
      exact ⟨hp, hown q hq, hcompatible q hq⟩
    · rintro ⟨⟨hp, hown⟩, hfirst, hpairs⟩
      refine ⟨hp, ⟨hown, hpairs⟩, fun q hq => ?_⟩
      have h := hfirst q hq
      rw [collectFields_append, pairwiseMerging_append_iff] at h
      exact h.2.2

/-! ## Groups -/

/-- No object among the constants of the fields and of those below them repeats a key. -/
def DistinctKeys (fields : List CollectedField) : Prop :=
  ∀ p ∈ fields, p.1.DistinctKeys ∧ ∀ f ∈ allFields p.2, f.DistinctKeys

theorem DistinctKeys.sublist {fields fields' : List CollectedField} (h : DistinctKeys fields)
    (hs : fields'.Sublist fields) : DistinctKeys fields' :=
  fun p hp => h p (hs.subset hp)

theorem distinctKeys_collectFields {selections : List Selection}
    (h : ∀ f ∈ allFields selections, f.DistinctKeys) :
    DistinctKeys (collectFields selections) := by
  intro p hp
  obtain ⟨hf, hsubs⟩ := within_of_mem_collectFields hp
  exact ⟨h _ hf, fun g hg => h g (hsubs g hg)⟩

theorem DistinctKeys.merged {fields : List CollectedField} (h : DistinctKeys fields) :
    DistinctKeys (collectFields (mergedSelections fields)) := by
  refine distinctKeys_collectFields fun f hf => ?_
  obtain ⟨p, hp, hf⟩ := mem_of_mem_allFields_mergedSelections hf
  exact (h p hp).2 f hf

theorem mem_underKey {key : String} {fields : List CollectedField} {p : CollectedField} :
    p ∈ underKey key fields ↔ p ∈ fields ∧ p.1.responseKey = key := by
  rw [underKey, List.mem_filter, beq_iff_eq]

theorem mem_notUnderKey {key : String} {fields : List CollectedField} {p : CollectedField} :
    p ∈ notUnderKey key fields ↔ p ∈ fields ∧ p.1.responseKey ≠ key := by
  rw [notUnderKey, List.mem_filter, bne_iff_ne]

/-- The first field with its group is a part of the list. -/
theorem sublist_underKey (p : CollectedField) (key : String) (rest : List CollectedField) :
    (p :: underKey key rest).Sublist (p :: rest) :=
  List.cons_sublist_cons.mpr List.filter_sublist

theorem sublist_notUnderKey (p : CollectedField) (key : String) (rest : List CollectedField) :
    (notUnderKey key rest).Sublist (p :: rest) :=
  List.filter_sublist.trans (List.sublist_cons_self p rest)

/-- The rule, taken apart by the key of the first field: its group, what is selected below the
    group, and all other fields. -/
theorem pairwiseMerging_cons_iff {f : Field} {subs : List Selection}
    {rest : List CollectedField} (hd : DistinctKeys ((f, subs) :: rest)) :
    PairwiseMerging ((f, subs) :: rest) ↔
      (∀ p ∈ underKey f.responseKey rest, p.1.SameCall f) ∧
        PairwiseMerging (collectFields (mergedSelections
          ((f, subs) :: underKey f.responseKey rest))) ∧
        PairwiseMerging (notUnderKey f.responseKey rest) := by
  have hf := (hd _ List.mem_cons_self).1
  have hrest : ∀ p ∈ rest, p.1.DistinctKeys := fun p hp => (hd p (List.mem_cons_of_mem _ hp)).1
  rw [pairwiseMerging_merged_iff]
  constructor
  · intro h
    obtain ⟨hown, hpairs⟩ := pairwiseMerging_iff.mp (h.sublist (sublist_underKey _ _ rest))
    have hkey : ∀ p ∈ (f, subs) :: underKey f.responseKey rest, p.1.responseKey = f.responseKey :=
      List.forall_mem_cons.mpr ⟨rfl, fun p hp => (mem_underKey.mp hp).2⟩
    refine ⟨fun p hp => ?_, ⟨hown, ?_⟩, h.sublist (sublist_notUnderKey _ _ rest)⟩
    · have hfp := (List.pairwise_cons.mp hpairs).1 p hp (mem_underKey.mp hp).2.symm
      exact hfp.1.symm hf (hrest p (mem_underKey.mp hp).1)
    · refine hpairs.imp_of_mem fun hp hq hpq => (hpq ?_).2
      exact (hkey _ hp).trans (hkey _ hq).symm
  · rintro ⟨hcall, ⟨hown, hpairs⟩, hothers⟩
    rw [List.forall_mem_cons] at hown
    rw [List.pairwise_cons] at hpairs
    obtain ⟨hownOthers, hpairsOthers⟩ := pairwiseMerging_iff.mp hothers
    refine pairwiseMerging_iff.mpr ⟨List.forall_mem_cons.mpr ⟨hown.1, fun p hp => ?_⟩,
      List.pairwise_cons.mpr ⟨fun p hp hkey => ?_, ?_⟩⟩
    · by_cases hkey : p.1.responseKey = f.responseKey
      · exact hown.2 p (mem_underKey.mpr ⟨hp, hkey⟩)
      · exact hownOthers p (mem_notUnderKey.mpr ⟨hp, hkey⟩)
    · have hunder := mem_underKey.mpr ⟨hp, hkey.symm⟩
      exact ⟨(hcall p hunder).symm (hrest p hp) hf, hpairs.1 p hunder⟩
    · -- two fields behind the first one are both in its group, or both among the others
      have hgroup := List.pairwise_filter.mp hpairs.2
      have hdifferent := List.pairwise_filter.mp hpairsOthers
      refine (hgroup.and hdifferent).imp_of_mem ?_
      intro p q hp hq hpq hkey
      by_cases hkeyf : p.1.responseKey = f.responseKey
      · have hkeyg := hkey.symm.trans hkeyf
        have hpcall := hcall p (mem_underKey.mpr ⟨hp, hkeyf⟩)
        have hqcall := (hcall q (mem_underKey.mpr ⟨hq, hkeyg⟩)).symm (hrest q hq) hf
        exact ⟨hpcall.trans (hrest p hp) hqcall,
          hpq.1 (beq_iff_eq.mpr hkeyf) (beq_iff_eq.mpr hkeyg)⟩
      · exact hpq.2 (bne_iff_ne.mpr hkeyf) (bne_iff_ne.mpr fun h => hkeyf (hkey.trans h)) hkey

/-! ## The check -/

/-- The check, group by group, succeeds exactly if the fields merge pair by pair. -/
theorem checkMerging_iff {parent : String} {fields : List CollectedField}
    (hd : DistinctKeys fields) : checkMerging parent fields = .ok () ↔ PairwiseMerging fields := by
  induction hn : fieldNodes fields using Nat.strongRecOn generalizing parent fields with
  | ind n ih =>
    cases fields with
    | nil => exact iff_of_true (by rw [checkMerging]) pairwiseMerging_nil
    | cons p rest =>
      obtain ⟨f, subs⟩ := p
      have hmerged : DistinctKeys (collectFields
          (subs ++ mergedSelections (underKey f.responseKey rest))) :=
        (hd.sublist (sublist_underKey _ _ rest)).merged
      have hbelow : fieldNodes (collectFields
          (subs ++ mergedSelections (underKey f.responseKey rest))) < n := by
        have h₁ := fieldNodes_collectFields_le
          (subs ++ mergedSelections (underKey f.responseKey rest))
        have h₂ := nodes_mergedSelections_le (underKey f.responseKey rest)
        have h₃ : fieldNodes (underKey f.responseKey rest) ≤ fieldNodes rest :=
          fieldNodes_filter_le _ rest
        rw [nodes_append] at h₁
        rw [← hn, fieldNodes]
        omega
      have hothers : fieldNodes (notUnderKey f.responseKey rest) < n := by
        have h : fieldNodes (notUnderKey f.responseKey rest) ≤ fieldNodes rest :=
          fieldNodes_filter_le _ rest
        rw [← hn, fieldNodes]
        omega
      rw [checkMerging_cons, pairwiseMerging_cons_iff hd,
        ih _ hbelow hmerged rfl, ih _ hothers (hd.sublist (sublist_notUnderKey _ _ rest)) rfl]
      simp only [conflicts_eq_false_iff]
      rfl

/-- The check of response keys accepts exactly the selection lists that merge pair by pair.  Their
    object constants are maps, so none repeats a key. -/
theorem checkResponseKeys_iff {selections : List Selection}
    (hd : ∀ f ∈ allFields selections, f.DistinctKeys) (parent : String) :
    checkResponseKeys parent selections = .ok () ↔ PairwiseMerging (collectFields selections) :=
  checkMerging_iff (distinctKeys_collectFields hd)

/-- The crew asked for twice, the second time inside a fragment. -/
def crewTwice : List Selection :=
  crewAnalyzed.selections ++ [.inline "Query" crewAnalyzed.selections]

theorem distinctKeys_crewTwice : ∀ f ∈ allFields crewTwice, f.DistinctKeys := by
  have hcrew : ∀ f ∈ allFields crewAnalyzed.selections, f.DistinctKeys := by
    intro f hf
    simp only [crewAnalyzed, addedTypename, Field.typename, allFields, List.mem_append,
      List.mem_cons, List.not_mem_nil, or_false, false_or] at hf
    rcases hf with rfl | rfl | rfl | rfl <;> intro a ha <;>
      simp only [List.mem_singleton, List.not_mem_nil] at ha
    · exact ⟨ha ▸ trivial, fun l hl => by rw [ha] at hl; cases hl⟩
    · refine ⟨ha ▸ trivial, fun l hl => ?_⟩
      rw [ha] at hl
      cases hl
      exact .int _
  intro f hf
  simp only [crewTwice, allFields_append, allFields, List.append_nil, List.mem_append,
    or_self] at hf
  exact hcrew f hf

/-- The two crews are one call, and what is selected below them merges pair by pair. -/
theorem checkResponseKeys_iff_crew :
    (∀ f ∈ allFields crewTwice, f.DistinctKeys) ∧
      checkResponseKeys "Query" crewTwice = .ok () ∧
      PairwiseMerging (collectFields crewTwice) := by
  have hcheck : checkResponseKeys "Query" crewTwice = .ok () := by cbv
  exact ⟨distinctKeys_crewTwice, hcheck,
    (checkResponseKeys_iff distinctKeys_crewTwice "Query").mp hcheck⟩

end Analysis

end QueryShapes
