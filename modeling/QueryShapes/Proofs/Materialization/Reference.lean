/-
  The merged-selection semantics of materialization.

  At every object the fields that apply are collected, grouped by response key in
  the order in which a key first has a field that is not injected, and the
  sub-selections of a group are concatenated.  Then every value is completed
  once, against the declared type of its group.  The trees have no spreads: these
  are entered beforehand.
-/
import QueryShapes.Materialization
import QueryShapes.Proofs.Analysis.Merging
import QueryShapes.Proofs.Entries

namespace QueryShapes.Materialization

open Selection Analysis

/-- The fields of a list that apply to an object, in order. -/
def applying (schema : Schema) (typename : Option String) (parent : String) :
    List Selection → List CollectedField
  | [] => []
  | .field f subs :: rest => (f, subs) :: applying schema typename parent rest
  | .inline condition subs :: rest =>
    (if applies schema condition parent typename then applying schema typename condition subs
      else []) ++ applying schema typename parent rest
  | .marker _ condition subs :: rest =>
    (if applies schema condition parent typename then applying schema typename condition subs
      else []) ++ applying schema typename parent rest
  | .spread _ _ :: rest => applying schema typename parent rest

/-- The fields that are not injected. -/
def visible (fields : List CollectedField) : List CollectedField := fields.filter (!·.1.injected)

/-- The keys with one more behind them, unless it is there already. -/
def addKey (keys : List String) (key : String) : List String :=
  if keys.contains key then keys else keys ++ [key]

/-- The response keys after the given ones, in order of first appearance. -/
def addKeys (keys : List String) (fields : List CollectedField) : List String :=
  fields.foldl (fun keys p => addKey keys p.1.responseKey) keys

/-- Whether an object has all the values that may not be missing. -/
def present (members : Json.Object) (fields : List CollectedField) : Bool :=
  fields.all fun p => members.contains p.1.responseKey || !p.1.type.isNonNull

/-- The output for a value of a type without selections. -/
def leaf? (schema : Schema) (type : FieldType) (value : Json) : Option Json :=
  match type, value with
  | _, .null => some .null
  | .int, v => if v.isInt32 then some v else none
  | .float, v => if v.isNumber then some v else none
  | .boolean, .bool b => some (.bool b)
  | .string, .str s => some (.str s)
  | .id, .str s => some (.str s)
  | .id, .int i => some (.str (Text.integer i))
  | .named name, v =>
    match schema.type? name, v with
    | some (.scalar _), v => some v
    | some (.enum _ words), .str word => if words.contains word then some (.str word) else none
    | _, _ => none
  | _, _ => none

mutual

/-- The output for a value of a type; `counts` says whose sub-selections are concatenated. -/
def completed (schema : Schema) (counts : Field → Bool) (type : FieldType)
    (selections : List Selection) (value : Json) : Option Json :=
  match type with
  | .nonNull inner =>
    if value.isNull then none else completed schema counts inner selections value
  | .list item =>
    match value with
    | .null => some .null
    | .arr items => (completedItems schema counts item selections items).map .arr
    | _ => none
  | .named name =>
    if schema.isComposite name then
      match value with
      | .null => some .null
      | .obj members => (completedObject schema counts name selections members).map .obj
      | _ => none
    else leaf? schema (.named name) value
  | other => leaf? schema other value
termination_by (sizeOf value, sizeOf type)

def completedItems (schema : Schema) (counts : Field → Bool) (type : FieldType)
    (selections : List Selection) (items : List Json) : Option (List Json) :=
  match items with
  | [] => some []
  | v :: rest => do
    let first ← completed schema counts type selections v
    let others ← completedItems schema counts type selections rest
    return first :: others
termination_by (sizeOf items, 0)

/-- The output for an object: one entry for every key that is not only injected. -/
def completedObject (schema : Schema) (counts : Field → Bool) (parent : String)
    (selections : List Selection) (members : Json.Object) : Option Json.Object :=
  let fields := applying schema (typename? members) parent selections
  if present members fields then
    completedMembers schema counts members fields (addKeys [] (visible fields))
  else none
termination_by (sizeOf members,
  (addKeys [] (visible (applying schema (typename? members) parent selections))).length + 1)

/-- The entries of the groups under the keys. -/
def completedMembers (schema : Schema) (counts : Field → Bool) (members : Json.Object)
    (fields : List CollectedField) (keys : List String) : Option Json.Object :=
  match keys with
  | [] => some []
  | key :: rest => do
    let first ← completedGroup schema counts members key (underKey key fields)
    let others ← completedMembers schema counts members fields rest
    return (key, first) :: others
termination_by (sizeOf members, keys.length)

/-- The output for the fields under one key: `null` for a value that may be missing. -/
def completedGroup (schema : Schema) (counts : Field → Bool) (members : Json.Object)
    (key : String) (group : List CollectedField) : Option Json :=
  match _h : members.get? key with
  | none => some .null
  | some v =>
    match group with
    | [] => some .null
    | (f, _) :: _ =>
      completed schema counts f.type (mergedSelections (group.filter (counts ·.1))) v
termination_by (sizeOf members, 0)
decreasing_by
  exact Prod.Lex.left _ _ (Json.sizeOf_get?_lt _h)

end

/-! ## Kind by kind -/

/-- Whether a type is completed without looking at selections. -/
def isLeaf (schema : Schema) : FieldType → Bool
  | .nonNull _ | .list _ => false
  | .named name => !schema.isComposite name
  | _ => true

section Reference

variable {schema : Schema} {counts : Field → Bool} {selections : List Selection} {value r : Json}

theorem completed_nonNull_eq_some {inner : FieldType} :
    completed schema counts (.nonNull inner) selections value = some r ↔
      value.isNull = false ∧ completed schema counts inner selections value = some r := by
  rw [completed]
  cases value.isNull <;> simp

theorem completed_list_eq_some {item : FieldType} :
    completed schema counts (.list item) selections value = some r ↔
      (value = .null ∧ r = .null) ∨
      ∃ items done, value = .arr items ∧ r = .arr done ∧
        completedItems schema counts item selections items = some done := by
  cases value with
  | null => simp [completed, eq_comm]
  | arr items =>
    simp only [completed, Option.map_eq_some_iff, reduceCtorEq, false_and, false_or, Json.arr.injEq]
    constructor
    · rintro ⟨done, hd, rfl⟩
      exact ⟨items, done, rfl, rfl, hd⟩
    · rintro ⟨items', done, rfl, rfl, hd⟩
      exact ⟨done, hd, rfl⟩
  | _ => simp [completed]

theorem completed_composite_eq_some {name : String} (hname : schema.isComposite name = true) :
    completed schema counts (.named name) selections value = some r ↔
      (value = .null ∧ r = .null) ∨
      ∃ members output, value = .obj members ∧ r = .obj output ∧
        completedObject schema counts name selections members = some output := by
  cases value with
  | null => simp [completed, hname, eq_comm]
  | obj members =>
    simp only [completed, hname, if_true, Option.map_eq_some_iff, reduceCtorEq, false_and, false_or,
      Json.obj.injEq]
    constructor
    · rintro ⟨output, ho, rfl⟩
      exact ⟨members, output, rfl, rfl, ho⟩
    · rintro ⟨members', output, rfl, rfl, ho⟩
      exact ⟨output, ho, rfl⟩
  | _ => simp [completed, hname]

theorem completed_leaf {type : FieldType} (htype : isLeaf schema type = true) :
    completed schema counts type selections value = leaf? schema type value := by
  cases type with
  | nonNull inner => cases htype
  | list item => cases htype
  | named name =>
    have hname : schema.isComposite name = false := by simpa [isLeaf] using htype
    cases value <;> simp [completed, hname]
  | _ => cases value <;> simp [completed]

/-- The reference completes an object key by key. -/
theorem completedMembers_eq_some {members : Json.Object} {fields : List CollectedField}
    {keys : List String} (hn : keys.Nodup) {output : Json.Object} :
    completedMembers schema counts members fields keys = some output ↔
      output.keys = keys ∧ ∀ key ∈ keys, ∃ w, output.get? key = some w ∧
        completedGroup schema counts members key (underKey key fields) = some w := by
  induction keys generalizing output with
  | nil =>
    rw [completedMembers]
    constructor
    · intro h
      cases h
      exact ⟨rfl, fun key hkey => by cases hkey⟩
    · rintro ⟨hkeys, -⟩
      rw [List.map_eq_nil_iff.mp hkeys]
  | cons key rest ih =>
    obtain ⟨hfree, hrest⟩ := List.nodup_cons.mp hn
    have hne : ∀ other ∈ rest, key ≠ other := by
      rintro other hother rfl
      exact hfree hother
    rw [completedMembers]
    constructor
    · intro h
      obtain ⟨w, hw, h⟩ := Option.bind_eq_some_iff.mp h
      obtain ⟨others, ho, h⟩ := Option.bind_eq_some_iff.mp h
      cases h
      obtain ⟨hkeys, hvalues⟩ := (ih hrest).mp ho
      refine ⟨congrArg (key :: ·) hkeys, fun other hother => ?_⟩
      rcases List.mem_cons.mp hother with rfl | hother
      · exact ⟨w, by rw [Entries.get?_cons, if_pos rfl], hw⟩
      · rw [Entries.get?_cons, if_neg (hne other hother)]
        exact hvalues other hother
    · rintro ⟨hkeys, hvalues⟩
      cases output with
      | nil => cases hkeys
      | cons p others =>
        obtain ⟨k, v⟩ := p
        simp only [Entries.keys, List.map_cons, List.cons.injEq] at hkeys
        obtain ⟨rfl, hkeys⟩ := hkeys
        obtain ⟨w, hw, hgroup⟩ := hvalues k List.mem_cons_self
        rw [Entries.get?_cons, if_pos rfl] at hw
        cases hw
        have hothers : completedMembers schema counts members fields rest = some others := by
          refine (ih hrest).mpr ⟨hkeys, fun other hother => ?_⟩
          obtain ⟨w, hw, hg⟩ := hvalues other (List.mem_cons_of_mem _ hother)
          rw [Entries.get?_cons, if_neg (hne other hother)] at hw
          exact ⟨w, hw, hg⟩
        rw [hgroup, hothers]
        rfl

end Reference

/-! ## Response keys -/

theorem nodup_addKey {keys : List String} (hn : keys.Nodup) (key : String) :
    (addKey keys key).Nodup := by
  unfold addKey
  split
  · exact hn
  · rename_i hfree
    rw [← List.concat_eq_append]
    exact hn.concat fun hmem => hfree (List.contains_iff_mem.mpr hmem)

theorem mem_addKey_iff {keys : List String} {key other : String} :
    key ∈ addKey keys other ↔ key ∈ keys ∨ other = key := by
  unfold addKey
  split
  · rename_i hmem
    have hmem := List.contains_iff_mem.mp hmem
    constructor
    · exact Or.inl
    · rintro (h | rfl)
      · exact h
      · exact hmem
  · simp [eq_comm]

theorem mem_addKeys_iff {keys : List String} {fields : List CollectedField} {key : String} :
    key ∈ addKeys keys fields ↔ key ∈ keys ∨ ∃ p ∈ fields, p.1.responseKey = key := by
  induction fields generalizing keys with
  | nil => simp [addKeys]
  | cons p rest ih =>
    have hcons : addKeys keys (p :: rest) = addKeys (addKey keys p.1.responseKey) rest := rfl
    rw [hcons, ih]
    simp only [mem_addKey_iff, List.mem_cons, or_assoc, exists_eq_or_imp]

theorem nodup_addKeys {keys : List String} (hn : keys.Nodup) (fields : List CollectedField) :
    (addKeys keys fields).Nodup := by
  induction fields generalizing keys with
  | nil => exact hn
  | cons p rest ih => exact ih (nodup_addKey hn _)

/-! ## Merged selection sets -/

/-- The selection lists that are completed against values below a list on a type, each with the
    type that it stands on. -/
inductive MergedBelow (schema : Schema) (counts : Field → Bool) (parent : String)
    (selections : List Selection) : String → List Selection → Prop
  | root : MergedBelow schema counts parent selections parent selections
  | under {type : String} {below : List Selection}
      (h : MergedBelow schema counts parent selections type below) (typename : Option String)
      {p : CollectedField} (hp : p ∈ applying schema typename type below) :
      MergedBelow schema counts parent selections p.1.type.innerName
        (mergedSelections ((underKey p.1.responseKey (applying schema typename type below)).filter
          (counts ·.1)))

/-- Fields that share a response key in a merged selection set have one declared type. -/
def SameTypes (schema : Schema) (counts : Field → Bool) (parent : String)
    (selections : List Selection) : Prop :=
  ∀ type below, MergedBelow schema counts parent selections type below → ∀ typename,
    ∀ p ∈ applying schema typename type below, ∀ q ∈ applying schema typename type below,
      p.1.responseKey = q.1.responseKey → p.1.type = q.1.type

theorem MergedBelow.trans {schema : Schema} {counts : Field → Bool}
    {parent type type' : String} {selections below below' : List Selection}
    (h : MergedBelow schema counts parent selections type below)
    (h' : MergedBelow schema counts type below type' below') :
    MergedBelow schema counts parent selections type' below' := by
  induction h' with
  | root => exact h
  | under _ typename hp ih => exact .under ih typename hp

/-- What is merged under one key has the same types again. -/
theorem SameTypes.under {schema : Schema} {counts : Field → Bool} {parent : String}
    {selections : List Selection} (h : SameTypes schema counts parent selections)
    {typename : Option String} {p : CollectedField}
    (hp : p ∈ applying schema typename parent selections) :
    SameTypes schema counts p.1.type.innerName
      (mergedSelections ((underKey p.1.responseKey (applying schema typename parent
        selections)).filter (counts ·.1))) :=
  fun type below hb => h type below (MergedBelow.trans (.under .root typename hp) hb)

theorem mem_collectFields_of_mem_applying {typename : Option String} {parent : String}
    {selections : List Selection} {p : CollectedField}
    (h : p ∈ applying schema typename parent selections) : p ∈ collectFields selections := by
  induction selections using listInduction generalizing parent with
  | nil => simp [applying] at h
  | field f subs rest ihs ihr =>
    simp only [applying, collectFields, List.mem_cons] at h ⊢
    exact h.imp_right ihr
  | spread name condition rest ihr =>
    simp only [applying, collectFields] at h ⊢
    exact ihr h
  | inline condition subs rest ihs ihr =>
    simp only [applying, collectFields, List.mem_append] at h ⊢
    refine h.imp (fun h => ?_) ihr
    split at h
    · exact ihs h
    · cases h
  | marker name condition subs rest ihs ihr =>
    simp only [applying, collectFields, List.mem_append] at h ⊢
    refine h.imp (fun h => ?_) ihr
    split at h
    · exact ihs h
    · cases h

/-- Where all fields of a tree that share a response key have one type, the fields of every merged
    selection set do. -/
theorem sameTypes_of_allFields {counts : Field → Bool} {parent : String}
    {selections : List Selection}
    (h : ∀ f ∈ allFields selections, ∀ g ∈ allFields selections,
      f.responseKey = g.responseKey → f.type = g.type) :
    SameTypes schema counts parent selections := by
  have hbelow : ∀ type below, MergedBelow schema counts parent selections type below →
      ∀ f ∈ allFields below, f ∈ allFields selections := by
    intro type below hb
    induction hb with
    | root => exact fun f hf => hf
    | under _ typename hp ih =>
      intro f hf
      obtain ⟨q, hq, hf⟩ := mem_of_mem_allFields_mergedSelections hf
      have hq := (List.mem_filter.mp (List.mem_filter.mp hq).1).1
      exact ih f ((within_of_mem_collectFields (mem_collectFields_of_mem_applying hq)).2 f hf)
  intro type below hb typename p hp q hq
  have hmem : ∀ r ∈ applying schema typename type below, r.1 ∈ allFields selections := fun r hr =>
    hbelow type below hb _
      (within_of_mem_collectFields (mem_collectFields_of_mem_applying hr)).1
  exact h _ (hmem p hp) _ (hmem q hq)

end QueryShapes.Materialization
