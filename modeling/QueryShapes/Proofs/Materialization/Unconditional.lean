/-
  Which selections no response can drop.

  `Placed` goes down a response and its output together: it relates the objects of
  the two to the selection lists that the output object was written with, each list
  with the static type that it stands on.  A field that such a list selects
  directly has its key in the output, and so does one that stands in fragments all
  on the static type, at every object that says no type, this type or a subtype
  (`unconditional_kept`).  The condition on the object is needed for fragments
  only, and for them it cannot be left out: an object that says another type loses
  the fields of a fragment on its static type, without an error
  (`unconditional_dropped`).

  Several fields of one key may have different types and share one output.  Where
  one of them is of a custom scalar, it takes the value over as it is and what
  earlier fields wrote is gone, so `Placed` looks at the fields behind it.
-/
import QueryShapes.Proofs.Analysis.Typing
import QueryShapes.Proofs.Materialization.PuttingBack
import QueryShapes.Proofs.Materialization.Typing

namespace QueryShapes.Materialization

open Selection Analysis

/-! ## Unconditional selections -/

/-- The fields that a list on a type selects without a condition: directly, or through fragments
    that are all on this type. -/
inductive Unconditional (c : Context) (type : String) : List Selection → Field → Prop
  | direct {list : List Selection} {f : Field} {subs : List Selection}
      (hf : .field f subs ∈ list) : Unconditional c type list f
  | through {list subs : List Selection} {s : Selection} {f : Field} (hs : s ∈ list)
      (hc : c.content? s = some (type, subs)) (h : Unconditional c type subs f) :
      Unconditional c type list f

section Collection

variable {c : Context} {typename : Option String} {parent : String} {list : List Selection}
  {fields : List CollectedField}

/-- An unconditional field applies if it stands in the list itself, or if selections on the static
    type apply. -/
theorem Collects.mem_of_unconditional (h : Collects c typename parent list fields) {f : Field}
    (hf : Unconditional c parent list f)
    (happlies : (∃ subs, .field f subs ∈ list) ∨
      applies c.schema parent parent typename = true) : ∃ subs, (f, subs) ∈ fields := by
  rcases happlies with ⟨subs, hmem⟩ | happlies
  · exact ⟨subs, h.mem_of_field hmem⟩
  · induction hf generalizing fields with
    | direct hmem => exact ⟨_, h.mem_of_field hmem⟩
    | through hs hc _ ih =>
      obtain ⟨inner, hinner, hsub⟩ := h.exists_inner hs hc happlies
      obtain ⟨subs, hmem⟩ := ih hinner
      exact ⟨subs, hsub _ hmem⟩

end Collection

/-! ## Objects and their outputs -/

/-- The type under its non-null wrappers. -/
def nullable : FieldType → FieldType
  | .nonNull inner => nullable inner
  | type => type

/-- A request for a value: its declared type and what is selected below. -/
abbrev Request := FieldType × List Selection

/-- A selection list with the type that it stands on. -/
abbrev TypedList := String × List Selection

/-- The objects below a value that all of some requests ask for, with their outputs and the lists
    that they are written with. -/
inductive Descends (schema : Schema) :
    List Request → Json → Json → List TypedList → Json.Object → Json.Object → Prop
  | object {requests : List Request} {lists : List TypedList} {members output : Json.Object}
      (h : List.Forall₂ (fun r l => nullable r.1 = .named l.1 ∧ schema.isComposite l.1 = true ∧
        r.2 = l.2) requests lists) :
      Descends schema requests (.obj members) (.obj output) lists members output
  | item {requests below : List Request} {lists : List TypedList} {items outputs : List Json}
      {i : Nat} {v w : Json} {members output : Json.Object}
      (h : List.Forall₂ (fun r b => nullable r.1 = .list b.1 ∧ r.2 = b.2) requests below)
      (hv : items[i]? = some v) (hw : outputs[i]? = some w)
      (hd : Descends schema below v w lists members output) :
      Descends schema requests (.arr items) (.arr outputs) lists members output

/-- The fields of several lists that apply to one object. -/
inductive CollectsAll (c : Context) (typename : Option String) :
    List TypedList → List CollectedField → Prop
  | nil : CollectsAll c typename [] []
  | cons {l : TypedList} {lists : List TypedList} {fields others : List CollectedField}
      (h : Collects c typename l.1 l.2 fields) (hr : CollectsAll c typename lists others) :
      CollectsAll c typename (l :: lists) (fields ++ others)

/-- The objects of a response with their outputs and the lists that these were written with: the
    root, and the objects below the value of a key that fields under this key ask for, the last of
    them at least. -/
inductive Placed (c : Context) (type : String) (selections : List Selection)
    (data out : Json.Object) : List TypedList → Json.Object → Json.Object → Prop
  | root : Placed c type selections data out [(type, selections)] data out
  | under {lists lists' : List TypedList} {members output members' output' : Json.Object}
      (h : Placed c type selections data out lists members output)
      {fields earlier later : List CollectedField} (key : String) {v w : Json}
      (hf : CollectsAll c (typename? members) lists fields)
      (hk : underKey key (visible fields) = earlier ++ later)
      (hv : members.get? key = some v) (hw : output.get? key = some w)
      (hd : Descends c.schema (later.map fun p => (p.1.type, p.2)) v w lists' members' output') :
      Placed c type selections data out lists' members' output'

section Places

variable {c : Context} {typename : Option String} {path : Path}

theorem CollectsAll.unique {lists : List TypedList} {fields others : List CollectedField}
    (h : CollectsAll c typename lists fields) (h' : CollectsAll c typename lists others) :
    fields = others := by
  induction h generalizing others with
  | nil =>
    cases h'
    rfl
  | cons hl _ ih =>
    cases h' with
    | cons hl' hr' => rw [hl.unique hl', ih hr']

theorem CollectsAll.exists_collects {lists : List TypedList} {fields : List CollectedField}
    (h : CollectsAll c typename lists fields) {l : TypedList} (hl : l ∈ lists) :
    ∃ part, Collects c typename l.1 l.2 part ∧ ∀ p ∈ part, p ∈ fields := by
  induction h with
  | nil => cases hl
  | cons hpart _ ih =>
    rcases List.mem_cons.mp hl with rfl | hl
    · exact ⟨_, hpart, fun p hp => List.mem_append_left _ hp⟩
    · obtain ⟨part, hpart', hsub⟩ := ih hl
      exact ⟨part, hpart', fun p hp => List.mem_append_right _ (hsub p hp)⟩

/-- The steps of several lists at an object. -/
def stepsOf (c : Context) (object : Json.Object) (lists : List TypedList) : List Step :=
  lists.flatMap fun l => c.steps object l.1 l.2

theorem collectsAll_of_stepsOf {object : Json.Object} {lists : List TypedList}
    {fields : List CollectedField} (h : stepsOf c object lists = fields.map Step.ofField) :
    CollectsAll c (typename? object) lists fields := by
  induction lists generalizing fields with
  | nil =>
    rw [List.map_eq_nil_iff.mp h.symm]
    exact .nil
  | cons l rest ih =>
    rw [stepsOf, List.flatMap_cons] at h
    obtain ⟨part, others, rfl, hp, ho⟩ := List.map_eq_append_iff.mp h.symm
    exact .cons (collects_of_stepsTo hp.symm) (ih ho.symm)

/-! ## Requests one after the other -/

/-- What requests for one value make of its slot, one after the other. -/
def Answers (c : Context) (path : Path) (value : Json) : List Request → Json → Json → Prop
  | [], slot, output => output = slot
  | r :: rest, slot, output =>
    ∃ w, complete c path r.1 r.2 value slot = .ok w ∧ Answers c path value rest w output

theorem answers_of_fills {v w : Json} {fields : List CollectedField} {slot : Option Json}
    (h : Fills c path (some v) fields slot (some w)) :
    Answers c path v (fields.map fun p => (p.1.type, p.2)) (slot.getD .null) w := by
  induction fields generalizing slot with
  | nil =>
    have hslot : some w = slot := h
    rw [← hslot]
    exact rfl
  | cons p rest ih =>
    obtain ⟨u, hu, hrest⟩ := h
    exact ⟨u, hu, ih hrest⟩

theorem complete_nullable {type : FieldType} {selections : List Selection}
    {value slot r : Json} (h : complete c path type selections value slot = .ok r) :
    complete c path (nullable type) selections value slot = .ok r := by
  induction type with
  | nonNull inner ih => exact ih (complete_nonNull_eq_ok.mp h).2
  | _ => exact h

/-- Requests for an object write its output with all their lists. -/
theorem writeSteps_of_answers {members output : Json.Object} {requests : List Request}
    {lists : List TypedList}
    (hs : List.Forall₂ (fun r l => nullable r.1 = .named l.1 ∧
      c.schema.isComposite l.1 = true ∧ r.2 = l.2) requests lists) {slot : Json}
    (h : Answers c path (.obj members) requests slot (.obj output)) :
    writeSteps c path members (stepsOf c members lists) (objectSlot slot) = .ok output := by
  induction hs generalizing slot with
  | nil =>
    have hslot : Json.obj output = slot := h
    rw [← hslot, stepsOf, List.flatMap_nil, writeSteps]
    rfl
  | cons hr _ ih =>
    obtain ⟨htype, hcomposite, hsubs⟩ := hr
    obtain ⟨w, hw, hrest⟩ := h
    have hw := complete_nullable hw
    rw [htype, hsubs] at hw
    rcases (complete_composite_eq_ok hcomposite).mp hw with
      ⟨hnull, -⟩ | ⟨members', middle, hmembers, rfl, hmiddle⟩
    · cases hnull
    · cases hmembers
      rw [stepsOf, List.flatMap_cons, writeSteps_append]
      exact ⟨middle, hmiddle, ih hrest⟩

/-- Requests for a list answer at every item: at first in the slot that is there for it. -/
theorem answers_item {items outputs : List Json} {requests below : List Request}
    (hs : List.Forall₂ (fun r b => nullable r.1 = FieldType.list b.1 ∧ r.2 = b.2) requests below)
    {slot : Json} (h : Answers c path (.arr items) requests slot (.arr outputs)) {i : Nat}
    {v w : Json} (hv : items[i]? = some v) (hw : outputs[i]? = some w) :
    ∃ slot', (∀ old, slot = .arr old → old.length = items.length → old[i]? = some slot') ∧
      Answers c (path.push (.index i)) v below slot' w := by
  induction hs generalizing slot with
  | nil =>
    have hslot : Json.arr outputs = slot := h
    refine ⟨w, fun old hold _ => ?_, rfl⟩
    rw [← hslot] at hold
    cases hold
    exact hw
  | cons hr _ ih =>
    obtain ⟨htype, hsubs⟩ := hr
    obtain ⟨u, hu, hrest⟩ := h
    have hu := complete_nullable hu
    rw [htype, hsubs] at hu
    rcases complete_list_eq_ok.mp hu with ⟨hnull, -⟩ | ⟨items', written, hitems, rfl, hwritten⟩
    · cases hnull
    · cases hitems
      obtain ⟨first, hfirst, hcomplete⟩ := completeItems_getElem? hwritten hv
      obtain ⟨slot', hslot', hanswers⟩ := ih hrest
      have hsame := hslot' written rfl (length_completeItems hwritten)
      rw [hfirst] at hsame
      cases hsame
      rw [Nat.zero_add] at hcomplete
      refine ⟨_, fun old hold hlength => ?_, first, hcomplete, hanswers⟩
      obtain ⟨hi, -⟩ := List.getElem?_eq_some_iff.mp hv
      rw [hold, listSlots, if_pos hlength, List.getElem?_eq_getElem (hlength ▸ hi)]
      rfl

/-- Below requests that answer, an object's output is written with the lists that it is placed
    with. -/
theorem exists_writeSteps_of_descends {requests : List Request} {v w : Json}
    {lists : List TypedList} {members output : Json.Object}
    (hd : Descends c.schema requests v w lists members output) {slot : Json}
    (h : Answers c path v requests slot w) :
    ∃ path start, writeSteps c path members (stepsOf c members lists) start = .ok output := by
  induction hd generalizing path slot with
  | object hs => exact ⟨path, objectSlot slot, writeSteps_of_answers hs h⟩
  | item hs hv hw _ ih =>
    obtain ⟨slot', -, hanswers⟩ := answers_item hs h hv hw
    exact ih hanswers

/-- The output of every placed object is written with its lists. -/
theorem exists_writeSteps_of_placed {type : String} {selections : List Selection}
    {data out : Json.Object}
    (hroot : writeSteps c Path.root data (c.steps data type selections) [] = .ok out)
    {lists : List TypedList} {members output : Json.Object}
    (h : Placed c type selections data out lists members output) :
    ∃ path start, writeSteps c path members (stepsOf c members lists) start = .ok output := by
  induction h with
  | root =>
    refine ⟨Path.root, [], ?_⟩
    rw [stepsOf, List.flatMap_cons, List.flatMap_nil, List.append_nil]
    exact hroot
  | under _ key hf hk hv hw hd ih =>
    obtain ⟨path, start, hsteps⟩ := ih
    obtain ⟨fields', hfields'⟩ := fields_of_writeSteps hsteps
    cases hf.unique (collectsAll_of_stepsOf hfields')
    rw [hfields'] at hsteps
    obtain ⟨-, hfills⟩ := fills_of_writeSteps hsteps
    have hgroup := hfills key
    rw [hk, hv, hw, fills_append_iff] at hgroup
    obtain ⟨middle, -, hlater⟩ := hgroup
    exact exists_writeSteps_of_descends hd (answers_of_fills hlater)

/-- A field that applies and is not injected has its key in the output, and in the object if its
    type is non-null. -/
theorem contains_of_writeSteps {members start output : Json.Object}
    {fields : List CollectedField}
    (h : writeSteps c path members (fields.map Step.ofField) start = .ok output) {f : Field}
    {subs : List Selection} (hf : (f, subs) ∈ fields) (hi : f.injected = false) :
    output.contains f.responseKey = true ∧
      (f.type.isNonNull = true → members.contains f.responseKey = true) := by
  obtain ⟨hpresent, hfills⟩ := fills_of_writeSteps h
  constructor
  · have hvisible : (f, subs) ∈ visible fields :=
      List.mem_filter.mpr ⟨hf, by rw [hi]; rfl⟩
    have hunder : (f, subs) ∈ underKey f.responseKey (visible fields) :=
      List.mem_filter.mpr ⟨hvisible, beq_iff_eq.mpr rfl⟩
    exact isSome_of_fills (hfills f.responseKey) (Or.inr (List.ne_nil_of_mem hunder))
  · intro hnonNull
    have hone := List.all_eq_true.mp hpresent _ hf
    rwa [hnonNull, Bool.not_true, Bool.or_false] at hone

end Places

/-! ## Whole responses -/

/-- Where materialization succeeds, every output object has the keys of the fields that its lists
    select without a condition and that are not injected, and the response object has those of them
    that are non-null: of the fields that a list selects itself whatever the object says of its
    type, and of those in fragments on the static type if it says no type, this type or one
    below. -/
theorem unconditional_kept {schema : Schema} {set : SelectionSet}
    {fragments : List FragmentDefinition} {data out : Json.Object}
    (h : materialize schema set fragments (.obj data) = .ok (.obj out)) {lists : List TypedList}
    {members output : Json.Object}
    (hp : Placed ⟨schema, fragments⟩ set.rootType set.selections data out lists members output)
    {type : String} {list : List Selection} (hl : (type, list) ∈ lists) {f : Field}
    (hf : Unconditional ⟨schema, fragments⟩ type list f) (hi : f.injected = false)
    (ht : (∃ subs, .field f subs ∈ list) ∨ TellsTypeOf schema type members) :
    output.contains f.responseKey = true ∧
      (f.type.isNonNull = true → members.contains f.responseKey = true) := by
  simp only [materialize, bind_eq_ok, pure_eq_ok, Json.obj.injEq, exists_eq_right] at h
  obtain ⟨path, start, hsteps⟩ := exists_writeSteps_of_placed h hp
  obtain ⟨fields, hfields⟩ := fields_of_writeSteps hsteps
  obtain ⟨part, hpart, hsub⟩ := (collectsAll_of_stepsOf hfields).exists_collects hl
  obtain ⟨subs, hmem⟩ := hpart.mem_of_unconditional hf (ht.imp_right applies_self_iff.mpr)
  rw [hfields] at hsteps
  exact contains_of_writeSteps hsteps (hsub _ hmem) hi

/-! ## A crew with a type that the schema does not know -/

/-- The names of a crew through a fragment on their type, beside the meta field. -/
def namedShape : OperationShape :=
  { crewShape with
    members := [.nested { name := "crew", positional := [.parameter "ship"] }
      [.leaf { name := "__typename" },
        .spread ⟨some "memberFields", "Member"⟩ [.leaf { name := "name" }]]] }

def crewField (value : ArgumentValue) : Field :=
  ⟨"crew", none, "Query", .list (.named "Member"), [⟨"ship", .nonNull .id, value, none⟩], false⟩

def nameField : Field := ⟨"name", none, "Member", .nonNull .string, [], false⟩

/-- The selections of the shape, with what stands below the meta field. -/
def namedOperation (value : ArgumentValue) (fragment : Selection) : SelectionSet :=
  ⟨.query, none, "Query",
    [.field (crewField value) [.field (Field.typename "Member" none false) [], fragment]]⟩

def namedFragments : List FragmentDefinition :=
  [⟨"memberFields", "Member", [.field nameField []]⟩]

def namedVariables : List VariableDeclaration := [⟨"crew_ship", .nonNull .id, "ship"⟩]

/-- The compiled shape. -/
def namedCompiled : SelectionSet :=
  namedOperation (.documentVariable "crew_ship") (.spread "memberFields" "Member")

def namedQuery : CompiledQuery where
  document := Document.render true (Document.pieces namedCompiled namedFragments namedVariables)
  operationName := none
  declarations := namedVariables
  selectionSet := namedCompiled
  fragments := namedFragments
  key := namedShape.key

theorem compile_named : compile crewSchema {} namedShape = .ok namedQuery := by
  have ha : Analysis.analyze crewSchema namedShape 512 = .ok (namedOperation (.parameter "ship")
      (.marker (some "memberFields") "Member" [.field nameField []])) := by
    cbv
  have hx : Extraction.extract (namedOperation (.parameter "ship")
      (.marker (some "memberFields") "Member" [.field nameField []])) =
        .ok (namedOperation (.parameter "ship") (.spread "memberFields" "Member"),
          namedFragments) := by
    simp [Extraction.extract, namedOperation, namedFragments, Extraction.countMarkers,
      Extraction.groupKey, Extraction.nameGroups, Extraction.Group.isLifted,
      Extraction.Group.definitionName, Extraction.replaceMarkers, Extraction.Lifted.name?,
      Entries.contains, Entries.insert, Entries.get?, Entries.values, crewField,
      FieldType.innerName]
  have hl : Lifting.lift (namedOperation (.parameter "ship") (.spread "memberFields" "Member"))
      namedFragments = (namedCompiled, namedFragments, namedVariables) := by
    cbv
  have hd : Document.synthesize namedCompiled namedFragments namedVariables true =
      .ok namedQuery.document := by
    simp [Document.synthesize, namedCompiled, namedFragments, namedOperation, crewField, nameField,
      Field.typename, Document.checkResolved, Document.unresolvedArgument?, namedQuery, bind,
      Except.bind, pure, Except.pure]
  exact compile_of_steps ha hx hl hd

/-- A member of the crew that says its type. -/
def memberData (typename : String) : Json.Object :=
  [("__typename", .str typename), ("name", .str "R2-D2")]

/-- A crew of one. -/
def crewData (member : Json.Object) : Json.Object := [("crew", .arr [.obj member])]

/-- The list below the crew. -/
def namedList : List Selection :=
  [.field (Field.typename "Member" none false) [], .spread "memberFields" "Member"]

/-- The one member of the crew is placed with the list below the crew. -/
theorem placed_member (member output : Json.Object) :
    Placed ⟨crewSchema, namedFragments⟩ "Query" namedCompiled.selections (crewData member)
      (crewData output) [("Member", namedList)] member output := by
  have hfields : CollectsAll ⟨crewSchema, namedFragments⟩ (typename? (crewData member))
      [("Query", namedCompiled.selections)]
      ([(crewField (.documentVariable "crew_ship"), namedList)] ++ []) :=
    .cons (.field .nil) .nil
  have hmember : Descends crewSchema [(.named "Member", namedList)] (.obj member) (.obj output)
      [("Member", namedList)] member output :=
    .object (.cons ⟨rfl, rfl, rfl⟩ .nil)
  have hitem : List.Forall₂ (fun r b : Request => nullable r.1 = .list b.1 ∧ r.2 = b.2)
      [(.list (.named "Member"), namedList)] [(.named "Member", namedList)] :=
    .cons ⟨rfl, rfl⟩ .nil
  have hcrew : Descends crewSchema [(.list (.named "Member"), namedList)]
      (.arr [.obj member]) (.arr [.obj output]) [("Member", namedList)] member output :=
    .item (i := 0) hitem rfl rfl hmember
  have hkey : underKey "crew" (visible [(crewField (.documentVariable "crew_ship"), namedList)]) =
      [] ++ [(crewField (.documentVariable "crew_ship"), namedList)] := rfl
  exact .under .root "crew" hfields hkey rfl rfl hcrew

theorem unconditional_name :
    Unconditional ⟨crewSchema, namedFragments⟩ "Member" namedList nameField :=
  .through (List.mem_cons_of_mem _ List.mem_cons_self) rfl (.direct List.mem_cons_self)

/-- A droid, which is a member, keeps the name that a fragment on members selects. -/
theorem unconditional_kept_droid :
    materialize crewSchema namedQuery.selectionSet namedQuery.fragments
        (.obj (crewData (memberData "Droid"))) = .ok (.obj (crewData (memberData "Droid"))) ∧
      (memberData "Droid").contains "name" = true := by
  have hok : materialize crewSchema namedCompiled namedFragments
      (.obj (crewData (memberData "Droid"))) = .ok (.obj (crewData (memberData "Droid"))) := by
    cbv
  have htells : TellsTypeOf crewSchema "Member" (memberData "Droid") := by
    intro name hname
    cases hname
    exact Or.inr (by cbv)
  exact ⟨hok, (unconditional_kept hok (placed_member _ _) List.mem_cons_self unconditional_name rfl
    (Or.inr htells)).1⟩

/-- A member of a type that the schema does not know loses its name without an error, though a
    fragment on the static type selects it and the response has it. -/
theorem unconditional_dropped :
    compile crewSchema {} namedShape = .ok namedQuery ∧
      materialize crewSchema namedQuery.selectionSet namedQuery.fragments
        (.obj (crewData (memberData "Astromech"))) =
          .ok (.obj (crewData [("__typename", .str "Astromech")])) ∧
      Unconditional ⟨crewSchema, namedQuery.fragments⟩ "Member" namedList nameField ∧
      nameField.injected = false ∧ (memberData "Astromech").contains nameField.responseKey = true ∧
      Entries.contains [("__typename", Json.str "Astromech")] nameField.responseKey = false := by
  have hok : materialize crewSchema namedCompiled namedFragments
      (.obj (crewData (memberData "Astromech"))) =
        .ok (.obj (crewData [("__typename", .str "Astromech")])) := by
    cbv
  exact ⟨compile_named, hok, unconditional_name, rfl, rfl, rfl⟩

end QueryShapes.Materialization
