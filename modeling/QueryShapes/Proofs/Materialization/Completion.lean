/-
  What the completion of a value does, one lemma for each kind of type, and its
  composition: completing a value with two selection lists one after the other
  in one slot is completing it with both lists at once (`complete_append`).
-/
import QueryShapes.Proofs.Except
import QueryShapes.Proofs.Materialization.Steps

namespace QueryShapes.Materialization

variable {c : Context} {path : Path} {selections : List Selection} {value slot r : Json}

/-! ## Single values -/

theorem complete_nonNull_eq_ok {inner : FieldType} :
    complete c path (.nonNull inner) selections value slot = .ok r ↔
      value.isNull = false ∧ complete c path inner selections value slot = .ok r := by
  rw [complete]
  cases value.isNull <;> simp

theorem complete_list_eq_ok {item : FieldType} :
    complete c path (.list item) selections value slot = .ok r ↔
      (value = .null ∧ r = .null) ∨
      ∃ items written, value = .arr items ∧ r = .arr written ∧
        completeItems c path item selections 0 items (listSlots slot items.length) =
          .ok written := by
  cases value with
  | null =>
    simp [complete, eq_comm]
  | arr items =>
    simp only [complete, bind_eq_ok, pure_eq_ok]
    constructor
    · rintro ⟨written, hw, rfl⟩
      exact Or.inr ⟨items, written, rfl, rfl, hw⟩
    · rintro (⟨h, -⟩ | ⟨items', written, h, rfl, hw⟩)
      · cases h
      · cases h
        exact ⟨written, hw, rfl⟩
  | _ => simp [complete]

/-- A value of a composite type is completed by the steps of its object. -/
theorem complete_composite {name : String} (hname : c.schema.isComposite name = true) :
    complete c path (.named name) selections value slot =
      match value with
      | .null => .ok .null
      | .obj members => do
        return .obj (← writeSteps c path members (c.steps members name selections)
          (objectSlot slot))
      | v => .error (mismatch path "object" v) := by
  unfold Schema.isComposite at hname
  cases hd : c.schema.type? name with
  | none => simp [hd] at hname
  | some d =>
    rw [hd] at hname
    cases d <;> cases value <;> simp_all [complete, TypeDefinition.isComposite]

theorem complete_composite_eq_ok {name : String} (hname : c.schema.isComposite name = true) :
    complete c path (.named name) selections value slot = .ok r ↔
      (value = .null ∧ r = .null) ∨
      ∃ members output, value = .obj members ∧ r = .obj output ∧
        writeSteps c path members (c.steps members name selections) (objectSlot slot) =
          .ok output := by
  rw [complete_composite hname]
  cases value with
  | null => simp [eq_comm]
  | obj members =>
    simp only [bind_eq_ok, pure_eq_ok]
    constructor
    · rintro ⟨output, hw, rfl⟩
      exact Or.inr ⟨members, output, rfl, rfl, hw⟩
    · rintro (⟨h, -⟩ | ⟨members', output, h, rfl, hw⟩)
      · cases h
      · cases h
        exact ⟨output, hw, rfl⟩
  | _ => simp

/-- A value of an enum or of a scalar is taken over; no other type is left for a value. -/
theorem complete_named_leaf {name : String} (hname : c.schema.isComposite name = false)
    (hv : value ≠ .null) :
    complete c path (.named name) selections value slot =
      match c.schema.type? name with
      | some (.enum _ words) =>
        keepIf (match value with
          | .str word => words.contains word
          | _ => false) path name value
      | some (.scalar _) => .ok value
      | _ => .error (.malformedResponse ("type '" ++ name ++ "' cannot appear in a response")) := by
  unfold Schema.isComposite at hname
  cases hd : c.schema.type? name with
  | none => cases value <;> simp [complete, hd] at hv ⊢
  | some d =>
    rw [hd] at hname
    cases d <;> cases value <;> simp [complete, hd, TypeDefinition.isComposite] at hname hv ⊢

theorem keepIf_eq_ok {holds : Bool} {expected : String} :
    keepIf holds path expected value = .ok r ↔ holds = true ∧ value = r := by
  unfold keepIf
  cases holds <;> simp

theorem complete_leaf_eq_ok {type : FieldType} (htype : isLeaf c.schema type = true) :
    complete c path type selections value slot = .ok r ↔ leaf? c.schema type value = some r := by
  cases type with
  | nonNull inner => cases htype
  | list item => cases htype
  | named name =>
    have hname : c.schema.isComposite name = false := by simpa [isLeaf] using htype
    unfold Schema.isComposite at hname
    cases hd : c.schema.type? name with
    | none => cases value <;> simp [complete, leaf?, hd]
    | some d =>
      rw [hd] at hname
      cases d <;> cases value <;>
        simp_all [complete, leaf?, TypeDefinition.isComposite, keepIf_eq_ok]
  | string => cases value <;> simp [complete, leaf?, keepIf_eq_ok, Json.str?]
  | int => cases value <;> simp [complete, leaf?, keepIf_eq_ok, Json.isInt32]
  | float => cases value <;> simp [complete, leaf?, keepIf_eq_ok, Json.isNumber]
  | id => cases value <;> simp [complete, leaf?, identifier]
  | boolean => cases value <;> simp [complete, leaf?, keepIf_eq_ok, Json.bool?]

theorem complete_leaf_append {type : FieldType} {as bs : List Selection}
    (htype : isLeaf c.schema type = true) :
    complete c path type (as ++ bs) value slot = .ok r ↔
      ∃ w, complete c path type as value slot = .ok w ∧
        complete c path type bs value w = .ok r := by
  simp only [complete_leaf_eq_ok htype]
  constructor
  · intro h
    exact ⟨r, h, h⟩
  · rintro ⟨w, -, h⟩
    exact h

/-! ## Lists -/

theorem completeItems_nil_eq_ok {type : FieldType} {index : Nat} {slots rs : List Json} :
    completeItems c path type selections index [] slots = .ok rs ↔ rs = [] := by
  rw [completeItems]
  simp [eq_comm]

theorem completeItems_cons_eq_ok {type : FieldType} {index : Nat} {v : Json}
    {rest slots rs : List Json} :
    completeItems c path type selections index (v :: rest) slots = .ok rs ↔
      ∃ first others, rs = first :: others ∧
        complete c (path.push (.index index)) type selections v (slots.headD .null) = .ok first ∧
        completeItems c path type selections (index + 1) rest slots.tail = .ok others := by
  rw [completeItems, List.drop_one]
  simp only [bind_eq_ok, pure_eq_ok]
  constructor
  · rintro ⟨first, hf, others, ho, rfl⟩
    exact ⟨first, others, rfl, hf, ho⟩
  · rintro ⟨first, others, rfl, hf, ho⟩
    exact ⟨first, hf, others, ho, rfl⟩

theorem length_completeItems {type : FieldType} {index : Nat} {items slots rs : List Json}
    (h : completeItems c path type selections index items slots = .ok rs) :
    rs.length = items.length := by
  induction items generalizing index slots rs with
  | nil => rw [completeItems_nil_eq_ok.mp h]
  | cons v rest ih =>
    obtain ⟨first, others, rfl, -, ho⟩ := completeItems_cons_eq_ok.mp h
    rw [List.length_cons, List.length_cons, ih ho]

/-- Every item of a list is completed in its own slot. -/
theorem completeItems_getElem? {type : FieldType} {index : Nat} {items slots rs : List Json}
    (h : completeItems c path type selections index items slots = .ok rs) {i : Nat} {v : Json}
    (hv : items[i]? = some v) :
    ∃ w, rs[i]? = some w ∧
      complete c (path.push (.index (index + i))) type selections v (slots[i]?.getD .null) =
        .ok w := by
  induction items generalizing index slots rs i with
  | nil => simp at hv
  | cons u rest ih =>
    obtain ⟨first, others, rfl, hf, ho⟩ := completeItems_cons_eq_ok.mp h
    cases i with
    | zero =>
      rw [List.getElem?_cons_zero, Option.some.injEq] at hv
      subst hv
      refine ⟨first, rfl, ?_⟩
      rw [Nat.add_zero, ← List.head?_eq_getElem?, ← List.headD_eq_head?_getD]
      exact hf
    | succ i =>
      rw [List.getElem?_cons_succ] at hv
      obtain ⟨w, hw, hc⟩ := ih ho hv
      refine ⟨w, hw, ?_⟩
      rw [List.getElem?_tail] at hc
      rwa [show index + (i + 1) = index + 1 + i by omega]

/-! ## One list after the other -/

theorem writeSteps_append {object : Json.Object} {as bs : List Step}
    {output output' : Json.Object} :
    writeSteps c path object (as ++ bs) output = .ok output' ↔
      ∃ middle, writeSteps c path object as output = .ok middle ∧
        writeSteps c path object bs middle = .ok output' := by
  induction as generalizing output with
  | nil => simp [writeSteps]
  | cons step rest ih =>
    cases step with
    | fault error => simp [writeSteps]
    | field f subs =>
      rw [List.cons_append, writeSteps, writeSteps]
      split
      · split
        · simp
        · split
          · exact ih
          · exact ih
      · split
        · exact ih
        · simp only [bind_eq_ok, ih]
          constructor
          · rintro ⟨written, hw, middle, hm, ho⟩
            exact ⟨middle, ⟨written, hw, hm⟩, ho⟩
          · rintro ⟨middle, ⟨written, hw, hm⟩, ho⟩
            exact ⟨written, hw, middle, hm, ho⟩

/-- The items of a list are completed one after the other, so both lists can be taken at every
    item in turn. -/
theorem completeItems_append {type : FieldType} {as bs : List Selection} {index : Nat}
    {items slots rs : List Json}
    (ih : ∀ v ∈ items, ∀ path slot r, complete c path type (as ++ bs) v slot = .ok r ↔
      ∃ w, complete c path type as v slot = .ok w ∧ complete c path type bs v w = .ok r) :
    completeItems c path type (as ++ bs) index items slots = .ok rs ↔
      ∃ ws, completeItems c path type as index items slots = .ok ws ∧
        completeItems c path type bs index items ws = .ok rs := by
  induction items generalizing index slots rs with
  | nil =>
    simp only [completeItems_nil_eq_ok, exists_eq_left]
  | cons v rest ihr =>
    simp only [completeItems_cons_eq_ok, ih v List.mem_cons_self,
      ihr fun u hu => ih u (List.mem_cons_of_mem _ hu)]
    constructor
    · rintro ⟨first, others, rfl, ⟨w, hw, hf⟩, ws, hws, ho⟩
      exact ⟨w :: ws, ⟨w, ws, rfl, hw, hws⟩, first, others, rfl, hf, ho⟩
    · rintro ⟨ws', ⟨w, ws, rfl, hw, hws⟩, first, others, rfl, hf, ho⟩
      exact ⟨first, others, rfl, ⟨w, hw, hf⟩, ws, hws, ho⟩

/-- Completing a value with two lists in one slot is completing it with both at once. -/
theorem complete_append {type : FieldType} {as bs : List Selection} :
    complete c path type (as ++ bs) value slot = .ok r ↔
      ∃ w, complete c path type as value slot = .ok w ∧
        complete c path type bs value w = .ok r := by
  induction hn : sizeOf value using Nat.strongRecOn generalizing path type value slot r with
  | ind n ih =>
    induction type generalizing slot r with
    | nonNull inner iht =>
      simp only [complete_nonNull_eq_ok, iht]
      constructor
      · rintro ⟨hv, w, hw, hr⟩
        exact ⟨w, ⟨hv, hw⟩, hv, hr⟩
      · rintro ⟨w, ⟨hv, hw⟩, -, hr⟩
        exact ⟨hv, w, hw, hr⟩
    | list item _ =>
      cases value with
      | arr items =>
        have hitems : ∀ v ∈ items, ∀ path slot r,
            complete c path item (as ++ bs) v slot = .ok r ↔
              ∃ w, complete c path item as v slot = .ok w ∧
                complete c path item bs v w = .ok r := by
          intro v hv path slot r
          refine ih (sizeOf v) ?_ rfl
          have := List.sizeOf_lt_of_mem hv
          rw [← hn, Json.arr.sizeOf_spec]
          omega
        simp only [complete_list_eq_ok, reduceCtorEq, false_and, false_or, Json.arr.injEq]
        constructor
        · rintro ⟨items', written, rfl, rfl, hw⟩
          obtain ⟨ws, hws, ho⟩ := (completeItems_append hitems).mp hw
          refine ⟨.arr ws, ⟨items, ws, rfl, rfl, hws⟩, items, written, rfl, rfl, ?_⟩
          -- the first list leaves an array of equal length, which the second one goes on with
          rwa [listSlots, if_pos (length_completeItems hws)]
        · rintro ⟨w, ⟨items', ws, rfl, rfl, hws⟩, items', written, rfl, rfl, ho⟩
          rw [listSlots, if_pos (length_completeItems hws)] at ho
          exact ⟨items, written, rfl, rfl, (completeItems_append hitems).mpr ⟨ws, hws, ho⟩⟩
      | _ => simp [complete_list_eq_ok]
    | named name =>
      cases hname : c.schema.isComposite name with
      | true =>
        cases value with
        | obj members =>
          simp only [complete_composite_eq_ok hname, reduceCtorEq, false_and, false_or,
            Json.obj.injEq, Context.steps_append, writeSteps_append]
          constructor
          · rintro ⟨members', output, rfl, rfl, middle, hm, ho⟩
            exact ⟨.obj middle, ⟨members, middle, rfl, rfl, hm⟩, members, output, rfl, rfl, ho⟩
          · rintro ⟨w, ⟨members', middle, rfl, rfl, hm⟩, members', output, rfl, rfl, ho⟩
            exact ⟨members, output, rfl, rfl, middle, hm, ho⟩
        | _ => simp [complete_composite_eq_ok hname]
      | false => exact complete_leaf_append (by simp [isLeaf, hname])
    | _ => exact complete_leaf_append rfl

/-! ## Objects and lists that are read alike -/

/-- Steps that do the same at two objects: they look for a value under one key, find one in both
    objects or in neither, and complete what they find alike. -/
inductive Step.Alike (c c' : Context) (members members' : Json.Object) : Step → Step → Prop
  | fault (error : MaterializeError) :
      Step.Alike c c' members members' (.fault error) (.fault error)
  | field {f f' : Field} {subs subs' : List Selection} (hkey : f.responseKey = f'.responseKey)
      (htype : f.type = f'.type) (hcoordinate : f.coordinate = f'.coordinate)
      (hinjected : f.injected = f'.injected)
      (hpresent : members.contains f.responseKey = members'.contains f.responseKey)
      (hvalues : f.injected = false → ∀ v v', members.get? f.responseKey = some v →
        members'.get? f.responseKey = some v' → ∀ path slot,
          complete c path f.type subs v slot = complete c' path f.type subs' v' slot) :
      Step.Alike c c' members members' (.field f subs) (.field f' subs')

theorem writeSteps_missing {members : Json.Object} {f : Field} {subs : List Selection}
    {steps : List Step} {output : Json.Object} (h : members.get? f.responseKey = none) :
    writeSteps c path members (.field f subs :: steps) output =
      if f.type.isNonNull then
        .error (.missingResponseField (path.push (.key f.responseKey)) f.coordinate)
      else if f.injected || output.contains f.responseKey then
        writeSteps c path members steps output
      else writeSteps c path members steps (output.insert f.responseKey .null) := by
  rw [writeSteps]
  split
  · rfl
  · rename_i v hv
    rw [h] at hv
    cases hv

theorem writeSteps_present {members : Json.Object} {f : Field} {subs : List Selection}
    {steps : List Step} {output : Json.Object} {v : Json}
    (h : members.get? f.responseKey = some v) :
    writeSteps c path members (.field f subs :: steps) output =
      if f.injected then writeSteps c path members steps output
      else
        complete c (path.push (.key f.responseKey)) f.type subs v
            ((output.get? f.responseKey).getD .null) >>= fun written =>
          writeSteps c path members steps (output.insert f.responseKey written) := by
  rw [writeSteps]
  split
  · rename_i hnone
    rw [h] at hnone
    cases hnone
  · rename_i v' hv
    rw [h] at hv
    cases hv
    rfl

/-- Steps that do the same leave the same output, or fail with the same error. -/
theorem writeSteps_congr {c c' : Context} {members members' : Json.Object}
    {steps steps' : List Step} (h : List.Forall₂ (Step.Alike c c' members members') steps steps')
    (path : Path) (output : Json.Object) :
    writeSteps c path members steps output = writeSteps c' path members' steps' output := by
  induction h generalizing output with
  | nil => rw [writeSteps, writeSteps]
  | cons hstep _ ih =>
    cases hstep with
    | fault error => rw [writeSteps, writeSteps]
    | @field f f' subs subs' hkey htype hcoordinate hinjected hpresent hvalues =>
      cases hv : members.get? f.responseKey with
      | none =>
        have hv' : members'.get? f'.responseKey = none := by
          rw [Entries.contains, hv] at hpresent
          rw [← hkey]
          exact Option.not_isSome_iff_eq_none.mp (by rw [← Entries.contains, ← hpresent]; simp)
        rw [writeSteps_missing hv, writeSteps_missing hv', ← hkey, ← htype, ← hcoordinate,
          ← hinjected]
        simp only [ih]
      | some v =>
        obtain ⟨v', hv'⟩ : ∃ v', members'.get? f.responseKey = some v' := by
          rw [Entries.contains, hv] at hpresent
          exact Option.isSome_iff_exists.mp hpresent.symm
        rw [writeSteps_present hv, writeSteps_present (hkey ▸ hv'), ← hkey, ← htype, ← hinjected]
        cases hi : f.injected with
        | true => exact ih output
        | false => simp only [ih, hvalues hi v v' hv hv']

/-- Lists whose items are completed alike are. -/
theorem completeItems_congr {c c' : Context} {type : FieldType} {as bs : List Selection}
    {items items' : List Json}
    (h : List.Forall₂ (fun v v' => ∀ path slot,
      complete c path type as v slot = complete c' path type bs v' slot) items items')
    (path : Path) (index : Nat) (slots : List Json) :
    completeItems c path type as index items slots =
      completeItems c' path type bs index items' slots := by
  induction h generalizing index slots with
  | nil => rw [completeItems, completeItems]
  | cons hitem _ ih => simp only [completeItems, hitem, ih]

end QueryShapes.Materialization
