/-
  What the steps of an object leave in its output.

  The keys are those that were there and then those of the fields that are not
  injected, in order of first appearance; and under every key stands what the
  fields of that key make of the slot, one after the other
  (`writeSteps_eq_ok_iff`).  Where these fields have one type, that is the value
  completed once with their selections concatenated (`fills_iff`,
  `writeSteps_eq_ok_iff_merged`).
-/
import QueryShapes.Proofs.Entries
import QueryShapes.Proofs.Materialization.Completion

namespace QueryShapes.Materialization

open Analysis

theorem keys_insert (m : Json.Object) (key : String) (value : Json) :
    (m.insert key value).keys = addKey m.keys key := by
  unfold addKey
  cases h : m.contains key with
  | true =>
    rw [if_pos (List.contains_iff_mem.mpr (Entries.mem_keys_iff.mpr h)),
      Entries.keys_insert_of_contains value h]
  | false =>
    rw [if_neg, Entries.keys_insert_of_not_contains value h]
    rw [List.contains_iff_mem, Entries.mem_keys_iff, h]
    exact Bool.false_ne_true

/-! ## One key -/

/-- What a field that is not injected writes over its slot: the completed value, or what is there
    already and else `null` for a value that is missing. -/
def Writes (c : Context) (path : Path) (value? : Option Json) (p : CollectedField)
    (slot : Option Json) (written : Json) : Prop :=
  match value? with
  | none => written = slot.getD .null
  | some v => complete c path p.1.type p.2 v (slot.getD .null) = .ok written

/-- What fields of one key make of its slot, one after the other. -/
def Fills (c : Context) (path : Path) (value? : Option Json) :
    List CollectedField → Option Json → Option Json → Prop
  | [], slot, slot' => slot' = slot
  | p :: rest, slot, slot' =>
    ∃ w, Writes c path value? p slot w ∧ Fills c path value? rest (some w) slot'

variable {c : Context} {path : Path}

theorem fills_missing_iff {fields : List CollectedField} {slot slot' : Option Json} :
    Fills c path none fields slot slot' ↔
      slot' = if fields.isEmpty then slot else some (slot.getD .null) := by
  induction fields generalizing slot with
  | nil => rfl
  | cons p rest ih =>
    simp only [Fills, Writes, exists_eq_left, ih]
    cases rest <;> simp

theorem fills_append_iff {value? : Option Json} {as bs : List CollectedField}
    {slot slot' : Option Json} :
    Fills c path value? (as ++ bs) slot slot' ↔
      ∃ middle, Fills c path value? as slot middle ∧ Fills c path value? bs middle slot' := by
  induction as generalizing slot with
  | nil => simp [Fills]
  | cons p rest ih =>
    rw [List.cons_append]
    simp only [Fills, ih]
    constructor
    · rintro ⟨w, hw, middle, hm, hb⟩
      exact ⟨middle, ⟨w, hw, hm⟩, hb⟩
    · rintro ⟨middle, ⟨w, hw, hm⟩, hb⟩
      exact ⟨w, hw, middle, hm, hb⟩

/-- A slot that is filled stays filled. -/
theorem isSome_of_fills {value? : Option Json} {fields : List CollectedField}
    {slot slot' : Option Json} (h : Fills c path value? fields slot slot')
    (hs : slot.isSome = true ∨ fields ≠ []) : slot'.isSome = true := by
  induction fields generalizing slot with
  | nil =>
    have hslot : slot' = slot := h
    rw [hslot]
    exact hs.resolve_right fun hne => hne rfl
  | cons p rest ih =>
    obtain ⟨w, -, hrest⟩ := h
    exact ih hrest (Or.inl rfl)

/-- Fields of one type fill a slot with what all their selections together make of it. -/
theorem fills_iff {type : FieldType} {v : Json} {fields : List CollectedField}
    (htype : ∀ p ∈ fields, p.1.type = type) {subs : List Selection} {slot : Json}
    {slot' : Option Json} :
    (∃ w, complete c path type subs v slot = .ok w ∧ Fills c path (some v) fields (some w) slot') ↔
      ∃ w, slot' = some w ∧
        complete c path type (subs ++ mergedSelections fields) v slot = .ok w := by
  induction fields generalizing subs with
  | nil =>
    simp only [Fills, mergedSelections, List.flatMap_nil, List.append_nil]
    exact exists_congr fun w => And.comm
  | cons p rest ih =>
    obtain ⟨f, subs'⟩ := p
    have hf : f.type = type := htype (f, subs') List.mem_cons_self
    rw [mergedSelections, List.flatMap_cons, ← List.append_assoc]
    refine Iff.trans ?_ (ih fun p hp => htype p (List.mem_cons_of_mem _ hp))
    simp only [Fills, Writes, Option.getD_some, hf, complete_append]
    constructor
    · rintro ⟨w, hw, w', hw', hfill⟩
      exact ⟨w', ⟨w, hw, hw'⟩, hfill⟩
    · rintro ⟨w', ⟨w, hw, hw'⟩, hfill⟩
      exact ⟨w, hw, w', hw', hfill⟩

/-- Fields of one type write into a new slot what one of them writes with the selections of all. -/
theorem fills_new_iff {value? : Option Json} {f : Field} {fields : List CollectedField}
    (hne : fields ≠ []) (htype : ∀ p ∈ fields, p.1.type = f.type) {slot' : Option Json} :
    Fills c path value? fields none slot' ↔
      ∃ w, slot' = some w ∧ Writes c path value? (f, mergedSelections fields) none w := by
  cases fields with
  | nil => exact absurd rfl hne
  | cons p rest =>
    cases value? with
    | none => simp [fills_missing_iff, Writes]
    | some v =>
      have hp : p.1.type = f.type := htype p List.mem_cons_self
      simp only [Fills, Writes, Option.getD_none, hp]
      rw [fills_iff fun q hq => htype q (List.mem_cons_of_mem _ hq), mergedSelections,
        mergedSelections, List.flatMap_cons]

/-! ## All keys -/

theorem present_cons {members : Json.Object} {p : CollectedField} {rest : List CollectedField} :
    present members (p :: rest) = true ↔
      (members.get? p.1.responseKey = none → p.1.type.isNonNull = false) ∧
        present members rest = true := by
  simp only [present, List.all_cons, Bool.and_eq_true, Entries.contains]
  cases members.get? p.1.responseKey <;> simp

theorem writeSteps_injected {members : Json.Object} {f : Field} (hf : f.injected = true)
    {subs : List Selection} {steps : List Step} {output output' : Json.Object} :
    writeSteps c path members (.field f subs :: steps) output = .ok output' ↔
      (members.get? f.responseKey = none → f.type.isNonNull = false) ∧
        writeSteps c path members steps output = .ok output' := by
  rw [writeSteps]
  split
  · rename_i hnone
    cases hnull : f.type.isNonNull <;> simp [hf, hnone]
  · rename_i v hv
    simp [hf, hv]

theorem writeSteps_visible {members : Json.Object} {f : Field} (hf : f.injected = false)
    {subs : List Selection} {steps : List Step} {output output' : Json.Object} :
    writeSteps c path members (.field f subs :: steps) output = .ok output' ↔
      (members.get? f.responseKey = none → f.type.isNonNull = false) ∧
        ∃ w, Writes c (path.push (.key f.responseKey)) (members.get? f.responseKey) (f, subs)
            (output.get? f.responseKey) w ∧
          writeSteps c path members steps (output.insert f.responseKey w) = .ok output' := by
  rw [writeSteps]
  split
  · rename_i hnone
    rw [hnone]
    simp only [Writes, exists_eq_left, forall_const]
    cases hnull : f.type.isNonNull with
    | true => simp
    | false =>
      cases hslot : output.get? f.responseKey with
      | none => simp [hf, Entries.contains, hslot]
      | some w => simp [hf, Entries.contains, hslot, Entries.insert_of_get? hslot]
  · rename_i v hv
    rw [hv]
    simp [Writes, hf, bind_eq_ok]

theorem underKey_cons (key : String) (p : CollectedField) (fields : List CollectedField) :
    underKey key (p :: fields) =
      if p.1.responseKey = key then p :: underKey key fields else underKey key fields := by
  by_cases h : p.1.responseKey = key <;> simp [underKey, h]

/-- The first field fills the slot of its key, and the others go on from there. -/
theorem forall_fills_cons_iff {members output output' : Json.Object} {p : CollectedField}
    {fields : List CollectedField} :
    (∀ key, Fills c (path.push (.key key)) (members.get? key) (underKey key (p :: fields))
        (output.get? key) (output'.get? key)) ↔
      ∃ w, Writes c (path.push (.key p.1.responseKey)) (members.get? p.1.responseKey) p
          (output.get? p.1.responseKey) w ∧
        ∀ key, Fills c (path.push (.key key)) (members.get? key) (underKey key fields)
          ((output.insert p.1.responseKey w).get? key) (output'.get? key) := by
  constructor
  · intro h
    have hself := h p.1.responseKey
    rw [underKey_cons, if_pos rfl] at hself
    obtain ⟨w, hw, hfills⟩ := hself
    refine ⟨w, hw, fun key => ?_⟩
    by_cases hkey : p.1.responseKey = key
    · subst hkey
      rwa [Entries.get?_insert_self]
    · have hother := h key
      rw [underKey_cons, if_neg hkey] at hother
      rwa [Entries.get?_insert, if_neg hkey]
  · rintro ⟨w, hw, h⟩ key
    have hkey := h key
    rw [underKey_cons]
    rw [Entries.get?_insert] at hkey
    split at hkey
    · rename_i hself
      subst hself
      rw [if_pos rfl]
      exact ⟨w, hw, hkey⟩
    · rename_i hne
      rwa [if_neg hne]

/-- What the steps of an object fill in, whatever its output is at first. -/
theorem fills_of_writeSteps {members : Json.Object} {fields : List CollectedField}
    {output output' : Json.Object}
    (h : writeSteps c path members (fields.map Step.ofField) output = .ok output') :
    present members fields = true ∧
      ∀ key, Fills c (path.push (.key key)) (members.get? key) (underKey key (visible fields))
        (output.get? key) (output'.get? key) := by
  induction fields generalizing output with
  | nil =>
    simp only [List.map_nil, writeSteps, Except.ok.injEq] at h
    exact ⟨rfl, fun key => by rw [h]; rfl⟩
  | cons p rest ih =>
    obtain ⟨f, subs⟩ := p
    rw [List.map_cons, Step.ofField] at h
    rw [present_cons]
    cases hf : f.injected with
    | true =>
      have hvisible : visible ((f, subs) :: rest) = visible rest := by
        simp [visible, hf]
      obtain ⟨hp, h⟩ := (writeSteps_injected hf).mp h
      rw [hvisible]
      exact ⟨⟨hp, (ih h).1⟩, (ih h).2⟩
    | false =>
      have hvisible : visible ((f, subs) :: rest) = (f, subs) :: visible rest := by
        simp [visible, hf]
      obtain ⟨hp, w, hw, h⟩ := (writeSteps_visible hf).mp h
      rw [hvisible, forall_fills_cons_iff]
      exact ⟨⟨hp, (ih h).1⟩, w, hw, (ih h).2⟩

/-- What the steps of an object leave in its output. -/
theorem writeSteps_eq_ok_iff {members : Json.Object} {fields : List CollectedField}
    {output output' : Json.Object} (hn : output.keys.Nodup) :
    writeSteps c path members (fields.map Step.ofField) output = .ok output' ↔
      present members fields = true ∧ output'.keys = addKeys output.keys (visible fields) ∧
      ∀ key, Fills c (path.push (.key key)) (members.get? key) (underKey key (visible fields))
        (output.get? key) (output'.get? key) := by
  induction fields generalizing output with
  | nil =>
    simp only [List.map_nil, writeSteps, Except.ok.injEq]
    constructor
    · rintro rfl
      exact ⟨rfl, rfl, fun key => rfl⟩
    · rintro ⟨-, hkeys, h⟩
      -- no key repeats, so the keys and the values make the object
      exact Entries.eq_of_get? hkeys.symm hn fun key => (h key).symm
  | cons p rest ih =>
    obtain ⟨f, subs⟩ := p
    rw [List.map_cons, Step.ofField, present_cons, and_assoc]
    cases hf : f.injected with
    | true =>
      have hvisible : visible ((f, subs) :: rest) = visible rest := by
        simp [visible, hf]
      rw [writeSteps_injected hf, hvisible, ih hn]
    | false =>
      have hvisible : visible ((f, subs) :: rest) = (f, subs) :: visible rest := by
        simp [visible, hf]
      rw [writeSteps_visible hf, hvisible, forall_fills_cons_iff]
      refine and_congr_right fun _ => ?_
      have hkeys : ∀ w, (output.insert f.responseKey w).keys.Nodup := by
        intro w
        rw [keys_insert]
        exact nodup_addKey hn _
      simp only [ih (hkeys _), keys_insert]
      constructor
      · rintro ⟨w, hw, hp, hk, hfills⟩
        exact ⟨hp, hk, w, hw, hfills⟩
      · rintro ⟨hp, hk, w, hw, hfills⟩
        exact ⟨w, hw, hp, hk, hfills⟩

theorem mem_underKey_self {p : CollectedField} {fields : List CollectedField} (hp : p ∈ fields) :
    p ∈ underKey p.1.responseKey fields :=
  List.mem_filter.mpr ⟨hp, beq_iff_eq.mpr rfl⟩

/-- Where the fields of a key have one type, each of them fills its slot with the selections of all
    of them. -/
theorem writeSteps_eq_ok_iff_merged {members output : Json.Object} {fields : List CollectedField}
    (ht : ∀ p ∈ visible fields, ∀ q ∈ visible fields,
      p.1.responseKey = q.1.responseKey → p.1.type = q.1.type) :
    writeSteps c path members (fields.map Step.ofField) [] = .ok output ↔
      present members fields = true ∧ output.keys = addKeys [] (visible fields) ∧
      ∀ p ∈ visible fields, ∃ w, output.get? p.1.responseKey = some w ∧
        Writes c (path.push (.key p.1.responseKey)) (members.get? p.1.responseKey)
          (p.1, mergedSelections (underKey p.1.responseKey (visible fields))) none w := by
  have hempty : (Entries.keys ([] : Json.Object)).Nodup := List.nodup_nil
  have hgroup : ∀ p ∈ visible fields, ∀ slot',
      Fills c (path.push (.key p.1.responseKey)) (members.get? p.1.responseKey)
        (underKey p.1.responseKey (visible fields)) none slot' ↔
      ∃ w, slot' = some w ∧ Writes c (path.push (.key p.1.responseKey))
        (members.get? p.1.responseKey)
        (p.1, mergedSelections (underKey p.1.responseKey (visible fields))) none w := by
    intro p hp slot'
    refine fills_new_iff (List.ne_nil_of_mem (mem_underKey_self hp)) fun q hq => ?_
    obtain ⟨hq, hkey⟩ := List.mem_filter.mp hq
    exact ht q hq p hp (beq_iff_eq.mp hkey)
  rw [writeSteps_eq_ok_iff hempty]
  refine and_congr_right fun _ => and_congr_right fun hkeys => ?_
  constructor
  · intro h p hp
    exact (hgroup p hp _).mp (h p.1.responseKey)
  · intro h key
    by_cases hkey : ∃ p ∈ visible fields, p.1.responseKey = key
    · obtain ⟨p, hp, rfl⟩ := hkey
      exact (hgroup p hp _).mpr (h p hp)
    · -- nothing is selected under the key, and the output has no other keys
      have hnone : underKey key (visible fields) = [] :=
        List.filter_eq_nil_iff.mpr fun p hp hpkey => hkey ⟨p, hp, beq_iff_eq.mp hpkey⟩
      rw [hnone]
      refine Entries.get?_eq_none_iff.mpr fun hmem => ?_
      rw [hkeys, mem_addKeys_iff] at hmem
      exact hkey (hmem.resolve_left List.not_mem_nil)

end QueryShapes.Materialization
