/-
  Materialization errors point at the value that causes them.

  `Expects` says what has to stand where a type is declared, and by which word an
  error calls it; `Fault` says which errors the position that they name deserves.
  Every error of a completion is a fault of a position that the selections lead to
  from the value, and its path is the way there (`blames_of_complete`): the way of
  the value it came from, and then one element for every key and index further
  down.
-/
import QueryShapes.Proofs.Materialization.Positions

namespace QueryShapes.Materialization

open Analysis

/-! ## What is wrong at a position -/

/-- What a value that is not `null` has to be where a type is declared, with the word that errors
    use for it.  A custom scalar expects nothing. -/
inductive Expects (schema : Schema) : FieldType → String → (Json → Prop) → Prop
  | nonNull {inner : FieldType} {word : String} {admits : Json → Prop}
      (h : Expects schema inner word admits) : Expects schema (.nonNull inner) word admits
  | list {item : FieldType} : Expects schema (.list item) "list" fun v => ∃ items, v = .arr items
  | int : Expects schema .int "Int" fun v => ∃ i, v = .int i ∧ -0x80000000 ≤ i ∧ i < 0x80000000
  | float : Expects schema .float "Float" fun v => (∃ i, v = .int i) ∨ ∃ x, v = .float x
  | boolean : Expects schema .boolean "Boolean" fun v => ∃ b, v = .bool b
  | string : Expects schema .string "String" fun v => ∃ s, v = .str s
  | id : Expects schema .id "ID" fun v => (∃ s, v = .str s) ∨ ∃ i, v = .int i
  | enum {name described : String} {words : List String}
      (hd : schema.type? name = some (.enum described words)) :
      Expects schema (.named name) name fun v => ∃ word ∈ words, v = .str word
  | composite {name : String} (hname : schema.isComposite name = true) :
      Expects schema (.named name) "object" fun v => ∃ members, v = .obj members

/-- The errors that name a position with the path to it because of what stands there. -/
inductive Fault (c : Context) (path : Path) : List Selection → Site → MaterializeError → Prop
  | null {list : List Selection} {inner : FieldType} :
      Fault c path list (.value (.nonNull inner) .null)
        (.nonNullViolation path (FieldType.nonNull inner).text)
  | kind {list : List Selection} {type : FieldType} {v : Json} {word : String}
      {admits : Json → Prop} (he : Expects c.schema type word admits) (hv : v ≠ .null)
      (hn : ¬ admits v) :
      Fault c path list (.value type v) (.scalarCoercion path word v.kind)
  | missing {parent : String} {list subs : List Selection} {members : Json.Object} {f : Field}
      (hf : Asks c (typename? members) parent list f subs) (hn : f.type.isNonNull = true)
      (hm : members.get? f.responseKey = none) :
      Fault c path list (.object parent members)
        (.missingResponseField (path.push (.key f.responseKey)) f.coordinate)
  | malformed {list : List Selection} {site : Site} (reason : String) :
      Fault c path list site (.malformedResponse reason)

/-- An error of a position that is led to from one whose path is known. -/
def Blames (c : Context) (path : Path) (list : List Selection) (site : Site)
    (error : MaterializeError) : Prop :=
  ∃ further list' site', LeadsTo c list site further list' site' ∧
    Fault c ⟨path.elements ++ further⟩ list' site' error

section Blaming

variable {c : Context} {path : Path} {list : List Selection} {site : Site}
  {error : MaterializeError}

namespace Blames

theorem here (h : Fault c path list site error) : Blames c path list site error := by
  refine ⟨[], list, site, .here, ?_⟩
  rwa [List.append_nil]

/-- A position that is one element of the path away. -/
theorem pushed {list' : List Selection} {site' : Site} {e : PathElement}
    (hlead : ∀ {further list'' site''}, LeadsTo c list' site' further list'' site'' →
      LeadsTo c list site (e :: further) list'' site'')
    (h : Blames c (path.push e) list' site' error) : Blames c path list site error := by
  obtain ⟨further, list'', site'', hl, hf⟩ := h
  refine ⟨e :: further, list'', site'', hlead hl, ?_⟩
  rwa [Path.push, List.append_assoc, List.singleton_append] at hf

/-- A position with the same path. -/
theorem within {list' : List Selection} {site' : Site}
    (hlead : ∀ {further list'' site''}, LeadsTo c list' site' further list'' site'' →
      LeadsTo c list site further list'' site'')
    (h : Blames c path list' site' error) : Blames c path list site error := by
  obtain ⟨further, list'', site'', hl, hf⟩ := h
  exact ⟨further, list'', site'', hlead hl, hf⟩

end Blames

/-! ## Errors of completion -/

theorem fault_of_keepIf {type : FieldType} {word : String} {admits : Json → Prop}
    (he : Expects c.schema type word admits) {value : Json} (hv : value ≠ .null) {holds : Bool}
    (hholds : admits value → holds = true) (h : keepIf holds path word value = .error error) :
    Fault c path list (.value type value) error := by
  unfold keepIf at h
  split at h
  · cases h
  · rename_i hnot
    cases h
    exact .kind he hv fun ha => hnot (hholds ha)

/-- A value of a type without selections is refused for what it is. -/
theorem fault_of_leaf {type : FieldType} (htype : isLeaf c.schema type = true) {value slot : Json}
    (h : complete c path type list value slot = .error error) :
    Fault c path list (.value type value) error := by
  by_cases hv : value = .null
  · subst hv
    cases type <;> simp [isLeaf, complete] at htype h
  · have hnot : value = .null → False := hv
    cases type with
    | nonNull inner => cases htype
    | list item => cases htype
    | int =>
      simp only [complete] at h
      refine fault_of_keepIf .int hv ?_ h
      rintro ⟨i, rfl, hlow, hhigh⟩
      simp [Json.isInt32, hlow, hhigh]
    | float =>
      simp only [complete] at h
      refine fault_of_keepIf .float hv ?_ h
      rintro (⟨i, rfl⟩ | ⟨x, rfl⟩) <;> rfl
    | boolean =>
      simp only [complete] at h
      refine fault_of_keepIf .boolean hv ?_ h
      rintro ⟨b, rfl⟩
      rfl
    | string =>
      simp only [complete] at h
      refine fault_of_keepIf .string hv ?_ h
      rintro ⟨s, rfl⟩
      rfl
    | id =>
      simp only [complete] at h
      cases value with
      | str s => cases h
      | int i => cases h
      | _ =>
        cases h
        exact .kind .id hv (by rintro (⟨s, hs⟩ | ⟨i, hi⟩) <;> contradiction)
    | named name =>
      have hname : c.schema.isComposite name = false := by simpa [isLeaf] using htype
      rw [complete_named_leaf hname hv] at h
      split at h
      · rename_i described words hd
        refine fault_of_keepIf (.enum hd) hv ?_ h
        rintro ⟨word, hword, rfl⟩
        exact List.contains_iff_mem.mpr hword
      · cases h
      · cases h
        exact .malformed _

/-- The steps of an object fail for what stands at it or below. -/
theorem blames_of_writeSteps {parent : String} {members : Json.Object}
    (ih : ∀ key v, members.get? key = some v → ∀ path type subs slot,
      complete c path type subs v slot = .error error → Blames c path subs (.value type v) error)
    {steps : List Step} (hdue : ∀ step ∈ steps, step.IsDue c (typename? members) parent list)
    {output : Json.Object} (h : writeSteps c path members steps output = .error error) :
    Blames c path list (.object parent members) error := by
  induction steps generalizing output with
  | nil =>
    rw [writeSteps] at h
    cases h
  | cons step rest ihr =>
    obtain ⟨hstep, hrest⟩ := List.forall_mem_cons.mp hdue
    have ihr := fun output => @ihr hrest output
    cases step with
    | fault e =>
      obtain ⟨reason, rfl⟩ := hstep
      rw [writeSteps] at h
      cases h
      exact .here (.malformed reason)
    | field f subs =>
      have hasks : Asks c (typename? members) parent list f subs := hstep
      rw [writeSteps] at h
      split at h
      · rename_i hnone
        split at h
        · rename_i hnonNull
          cases h
          exact .here (.missing hasks hnonNull hnone)
        · split at h
          · exact ihr _ h
          · exact ihr _ h
      · rename_i v hv
        split at h
        · exact ihr _ h
        · rename_i hinjected
          rcases bind_eq_error.mp h with h | ⟨written, -, h⟩
          · have hbelow := ih _ v hv _ _ _ _ h
            exact .pushed (.field hasks (Bool.eq_false_iff.mpr hinjected) hv) hbelow
          · exact ihr _ h

/-- The items of a list fail for what stands at one of them or below. -/
theorem blames_of_completeItems {type : FieldType} {items : List Json}
    (ih : ∀ v ∈ items, ∀ path slot,
      complete c path type list v slot = .error error → Blames c path list (.value type v) error)
    {index : Nat} {slots : List Json}
    (h : completeItems c path type list index items slots = .error error) :
    ∃ i v, items[i]? = some v ∧
      Blames c (path.push (.index (index + i))) list (.value type v) error := by
  induction items generalizing index slots with
  | nil =>
    rw [completeItems] at h
    cases h
  | cons v rest ihr =>
    rw [completeItems] at h
    rcases bind_eq_error.mp h with h | ⟨first, -, h⟩
    · exact ⟨0, v, rfl, ih v List.mem_cons_self _ _ h⟩
    · rcases bind_eq_error.mp h with h | ⟨others, -, h⟩
      · obtain ⟨i, u, hu, hblames⟩ := ihr (fun u hu => ih u (List.mem_cons_of_mem v hu)) h
        rw [Nat.add_right_comm] at hblames
        exact ⟨i + 1, u, hu, hblames⟩
      · cases h

/-- Completion of a value fails for what stands at it or below, and says how to get there. -/
theorem blames_of_complete {type : FieldType} {value slot : Json}
    (h : complete c path type list value slot = .error error) :
    Blames c path list (.value type value) error := by
  induction hn : sizeOf value using Nat.strongRecOn
    generalizing path type list value slot with
  | ind n ih =>
    -- lists and objects go down in the value, a non-null type stays at the same value
    induction type generalizing slot with
    | nonNull inner iht =>
      rw [complete] at h
      split at h
      · rename_i hnull
        rw [Json.isNull_iff] at hnull
        subst hnull
        cases h
        exact .here .null
      · exact .within .nonNull (iht h)
    | list item _ =>
      cases value with
      | null => simp [complete] at h
      | arr items =>
        rw [complete] at h
        rcases bind_eq_error.mp h with h | ⟨written, -, h⟩
        · obtain ⟨i, v, hv, hblames⟩ := blames_of_completeItems (fun v hv path slot h => by
            refine ih (sizeOf v) ?_ h rfl
            have := List.sizeOf_lt_of_mem hv
            rw [← hn, Json.arr.sizeOf_spec]
            omega) h
          rw [Nat.zero_add] at hblames
          exact .pushed (.item hv) hblames
        · cases h
      | _ =>
        simp only [complete] at h
        cases h
        exact .here (.kind .list (by simp) (by simp))
    | named name =>
      cases hname : c.schema.isComposite name with
      | true =>
        rw [complete_composite hname] at h
        cases value with
        | null => cases h
        | obj members =>
          rcases bind_eq_error.mp h with h | ⟨output, -, h⟩
          · refine .within (.composite hname) (blames_of_writeSteps (fun key v hv _ _ _ _ h => ?_)
              Context.isDue_of_mem_steps h)
            refine ih (sizeOf v) ?_ h rfl
            have := Json.sizeOf_get?_lt hv
            rw [← hn, Json.obj.sizeOf_spec]
            omega
          · cases h
        | _ =>
          cases h
          exact .here (.kind (.composite hname) (by simp) (by simp))
      | false => exact .here (fault_of_leaf (by simp [isLeaf, hname]) h)
    | _ => exact .here (fault_of_leaf rfl h)

/-- An error of a whole response is a fault of a position in it. -/
theorem blames_of_materialize {schema : Schema} {set : SelectionSet}
    {fragments : List FragmentDefinition} {data : Json}
    (h : materialize schema set fragments data = .error error) :
    (∃ members, data = .obj members ∧ Blames ⟨schema, fragments⟩ Path.root set.selections
      (.object set.rootType members) error) ∨ ∃ reason, error = .malformedResponse reason := by
  cases data with
  | obj members =>
    rw [materialize] at h
    rcases bind_eq_error.mp h with h | ⟨output, -, h⟩
    · exact Or.inl ⟨members, rfl, blames_of_writeSteps (fun _ _ _ _ _ _ _ h => blames_of_complete h)
        Context.isDue_of_mem_steps h⟩
    · cases h
  | _ =>
    cases h
    exact Or.inr ⟨_, rfl⟩

end Blaming

/-! ## Whole responses -/

/-- The path of an error leads through the data to what the error is about: to a `null` at a
    non-null type; to a value of the reported kind at a type whose word is the reported one and that does not
    admit the value; or, without its last key, to an object that lacks this key, where a non-null
    field of the reported coordinate is asked for under the key. -/
theorem materialize_error_path (schema : Schema) (set : SelectionSet)
    (fragments : List FragmentDefinition) (data : Json) :
    (∀ path type,
      materialize schema set fragments data = .error (.nonNullViolation path type) →
        data.at? path.elements = some .null ∧
        ∃ members list inner, data = .obj members ∧ type = (FieldType.nonNull inner).text ∧
          LeadsTo ⟨schema, fragments⟩ set.selections (.object set.rootType members)
            path.elements list (.value (.nonNull inner) .null)) ∧
    (∀ path expected found,
      materialize schema set fragments data = .error (.scalarCoercion path expected found) →
        ∃ v, data.at? path.elements = some v ∧ v ≠ .null ∧ v.kind = found ∧
        ∃ members list declared admits, data = .obj members ∧
          LeadsTo ⟨schema, fragments⟩ set.selections (.object set.rootType members)
            path.elements list (.value declared v) ∧
          Expects schema declared expected admits ∧ ¬ admits v) ∧
    (∀ path coordinate,
      materialize schema set fragments data = .error (.missingResponseField path coordinate) →
        ∃ outer key, ∃ object : Json.Object, path.elements = outer ++ [.key key] ∧
          data.at? outer = some (.obj object) ∧ object.contains key = false ∧
        ∃ members parent list f subs, data = .obj members ∧
          LeadsTo ⟨schema, fragments⟩ set.selections (.object set.rootType members)
            outer list (.object parent object) ∧
          Asks ⟨schema, fragments⟩ (typename? object) parent list f subs ∧
          f.responseKey = key ∧ f.type.isNonNull = true ∧ f.coordinate = coordinate) := by
  refine ⟨fun path type h => ?_, fun path expected found h => ?_, fun path coordinate h => ?_⟩
  all_goals
    rcases blames_of_materialize h with ⟨members, rfl, further, list, site, hlead, hfault⟩ | ⟨_, he⟩
    swap
    · cases he
    have hat := hlead.at?_eq
    cases hfault
  case null inner => exact ⟨hat, members, list, inner, rfl, rfl, hlead⟩
  case kind declared v admits hv hn hexpects =>
    exact ⟨v, hat, hv, rfl, members, list, declared, admits, rfl, hlead, hexpects, hn⟩
  case missing parent subs object f hnonNull hmissing hasks =>
    refine ⟨further, f.responseKey, object, rfl, hat, ?_, members, parent, list, f, subs, rfl,
      hlead, hasks, rfl, hnonNull, rfl⟩
    rw [Entries.contains, hmissing]
    rfl

/-- A squad whose second hero has no identifier. -/
def unnamedSquad : Json := .obj [("squad", .arr [.obj [("id", .int 1)], .obj []])]

/-- The error leads to the hero without an identifier. -/
theorem materialize_error_path_squad :
    materialize squadSchema (squadSet false) squadFragments unnamedSquad =
        .error (.missingResponseField ⟨[.key "squad", .index 1, .key "id"]⟩ "Hero.id") ∧
      ∃ outer, [.key "squad", .index 1, .key "id"] = outer ++ [PathElement.key "id"] ∧
        ∃ object : Json.Object, unnamedSquad.at? outer = some (.obj object) ∧
          object.contains "id" = false := by
  have herror : materialize squadSchema (squadSet false) squadFragments unnamedSquad =
      .error (.missingResponseField ⟨[.key "squad", .index 1, .key "id"]⟩ "Hero.id") := by
    cbv
  obtain ⟨outer, key, object, hpath, hat, hlacks, -⟩ :=
    (materialize_error_path _ _ _ _).2.2 _ _ herror
  have hlast := congrArg List.getLast? hpath
  rw [List.getLast?_append_of_ne_nil _ (List.cons_ne_nil _ _)] at hlast
  cases hlast
  exact ⟨herror, outer, hpath, object, hat, hlacks⟩

end QueryShapes.Materialization
