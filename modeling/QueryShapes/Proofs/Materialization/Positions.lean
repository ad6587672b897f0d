/-
  The positions of a response that selections lead to.

  `Asks` says which fields a selection list asks an object for.  `LeadsTo` goes
  down a response along these fields, and through the declared types of their
  values: only response keys and list indices take a step of the path, which
  therefore leads to the same value in the data alone (`LeadsTo.at?_eq`).
-/
import QueryShapes.Proofs.Materialization.Typing

namespace QueryShapes

namespace Json

/-- The value one step into another. -/
def child? : Json → PathElement → Option Json
  | .arr items, .index i => items[i]?
  | .obj members, .key name => Entries.get? members name
  | _, _ => none

/-- The value at the end of a path. -/
def at? (v : Json) : List PathElement → Option Json
  | [] => some v
  | e :: path => (v.child? e).bind fun child => child.at? path

end Json

namespace Materialization

open Selection Analysis

/-! ## The fields that an object is asked for -/

/-- A field that a selection list on a type asks an object for: it stands in the list or in a
    fragment that applies to the object. -/
inductive Asks (c : Context) (typename : Option String) :
    String → List Selection → Field → List Selection → Prop
  | direct {parent : String} {list subs : List Selection} {f : Field}
      (hf : .field f subs ∈ list) : Asks c typename parent list f subs
  | through {parent condition : String} {list body subs : List Selection} {s : Selection}
      {f : Field} (hs : s ∈ list) (hc : c.content? s = some (condition, body))
      (happlies : applies c.schema condition parent typename = true)
      (h : Asks c typename condition body f subs) : Asks c typename parent list f subs

section Asking

variable {c : Context} {typename : Option String} {parent : String} {list : List Selection}

/-- Of a longer list more is asked. -/
theorem Asks.mono {list' subs : List Selection} {f : Field} (h : Asks c typename parent list f subs)
    (hsub : ∀ s ∈ list, s ∈ list') : Asks c typename parent list' f subs := by
  cases h with
  | direct hf => exact .direct (hsub _ hf)
  | through hs hc happlies h => exact .through (hsub _ hs) hc happlies h

/-- The fields that are asked for are those that apply. -/
theorem Collects.asks_iff {fields : List CollectedField}
    (h : Collects c typename parent list fields) {f : Field} {subs : List Selection} :
    Asks c typename parent list f subs ↔ (f, subs) ∈ fields := by
  constructor
  · intro ha
    induction ha generalizing fields with
    | direct hf => exact h.mem_of_field hf
    | through hs hc happlies _ ih =>
      obtain ⟨inner, hinner, hsub⟩ := h.exists_inner hs hc happlies
      exact hsub _ (ih hinner)
  · intro hmem
    induction h with
    | nil => cases hmem
    | field _ ih =>
      rcases List.mem_cons.mp hmem with heq | hmem
      · cases heq
        exact .direct List.mem_cons_self
      · exact (ih hmem).mono fun s hs => List.mem_cons_of_mem _ hs
    | entered hs happlies _ _ ihinner ih =>
      rcases List.mem_append.mp hmem with hmem | hmem
      · exact .through List.mem_cons_self hs happlies (ihinner hmem)
      · exact (ih hmem).mono fun s hs => List.mem_cons_of_mem _ hs
    | skipped _ _ _ ih => exact (ih hmem).mono fun s hs => List.mem_cons_of_mem _ hs

/-- A step that a selection list can give: a field that it asks for, or that the response cannot be
    held against the list. -/
def Step.IsDue (c : Context) (typename : Option String) (parent : String)
    (list : List Selection) : Step → Prop
  | .field f subs => Asks c typename parent list f subs
  | .fault error => ∃ reason, error = .malformedResponse reason

theorem Step.IsDue.mono {list' : List Selection} {step : Step}
    (h : step.IsDue c typename parent list) (hsub : ∀ s ∈ list, s ∈ list') :
    step.IsDue c typename parent list' := by
  cases step with
  | field f subs => exact Asks.mono h hsub
  | fault error => exact h

/-- What is due below a fragment that applies is due at the list. -/
theorem Step.IsDue.through {condition : String} {s : Selection} {body : List Selection}
    {steps : List Step} (hs : s ∈ list) (hc : c.content? s = some (condition, body))
    (h : ∀ step ∈ steps, step.IsDue c typename condition body) :
    ∀ step ∈ (if applies c.schema condition parent typename then steps else []),
      step.IsDue c typename parent list := by
  intro step hstep
  obtain ⟨happlies, hstep⟩ := List.mem_ite_nil_right.mp hstep
  have hdue := h step hstep
  cases step with
  | field f subs => exact Asks.through hs hc happlies hdue
  | fault error => exact hdue

theorem isDue_of_mem_stepsWith {spread : String → List Selection → List Step}
    (hspread : ∀ condition selections, ∀ step ∈ spread condition selections,
      step.IsDue c typename condition selections) :
    ∀ step ∈ stepsWith c typename spread parent list, step.IsDue c typename parent list := by
  have htail : ∀ {parent : String} {s : Selection} {rest : List Selection},
      (∀ step ∈ stepsWith c typename spread parent rest, step.IsDue c typename parent rest) →
      ∀ step ∈ stepsWith c typename spread parent rest,
        step.IsDue c typename parent (s :: rest) :=
    fun h step hstep => (h step hstep).mono fun s hs => List.mem_cons_of_mem _ hs
  induction list using listInduction generalizing parent with
  | nil =>
    intro step hstep
    rw [stepsWith] at hstep
    cases hstep
  | field f subs rest _ ihr =>
    rw [stepsWith, List.forall_mem_cons]
    exact ⟨Asks.direct List.mem_cons_self, htail ihr⟩
  | spread name condition rest ihr =>
    rw [stepsWith, List.forall_mem_append]
    refine ⟨?_, htail ihr⟩
    cases hd : c.fragment? name with
    | none =>
      rw [List.forall_mem_singleton]
      exact ⟨_, rfl⟩
    | some d =>
      have hc : c.content? (.spread name condition) = some (condition, d.selections) := by
        rw [Context.content?, hd]
        rfl
      exact Step.IsDue.through List.mem_cons_self hc (hspread condition d.selections)
  | inline condition subs rest ihs ihr =>
    rw [stepsWith, List.forall_mem_append]
    exact ⟨Step.IsDue.through List.mem_cons_self rfl ihs, htail ihr⟩
  | marker name condition subs rest ihs ihr =>
    rw [stepsWith, List.forall_mem_append]
    exact ⟨Step.IsDue.through List.mem_cons_self rfl ihs, htail ihr⟩

/-- Every step of a list at an object is due there. -/
theorem Context.isDue_of_mem_steps {members : Json.Object} :
    ∀ step ∈ c.steps members parent list, step.IsDue c (typename? members) parent list := by
  unfold Context.steps
  generalize c.spreadDepth = depth
  induction depth generalizing parent list with
  | zero =>
    refine isDue_of_mem_stepsWith fun condition selections => ?_
    rw [List.forall_mem_singleton]
    exact ⟨_, rfl⟩
  | succ depth ih => exact isDue_of_mem_stepsWith fun condition selections => ih

end Asking

/-! ## Positions -/

/-- What stands at a position of a response: a value where a type is declared, or an object where
    selections on a type are held against it. -/
inductive Site where
  | value (type : FieldType) (v : Json)
  | object (type : String) (members : Json.Object)

/-- The value that stands there. -/
def Site.json : Site → Json
  | .value _ v => v
  | .object _ members => .obj members

/-- The positions below one that a selection list is held against, each with the path to it and the
    list that is held against it: the values of the fields that are asked for and are not injected,
    their items, and the objects of composite types. -/
inductive LeadsTo (c : Context) :
    List Selection → Site → List PathElement → List Selection → Site → Prop
  | here {list : List Selection} {site : Site} : LeadsTo c list site [] list site
  | field {parent : String} {list subs list' : List Selection} {members : Json.Object} {f : Field}
      {v : Json} {path : List PathElement} {site : Site}
      (hf : Asks c (typename? members) parent list f subs) (hi : f.injected = false)
      (hv : members.get? f.responseKey = some v)
      (h : LeadsTo c subs (.value f.type v) path list' site) :
      LeadsTo c list (.object parent members) (.key f.responseKey :: path) list' site
  | nonNull {inner : FieldType} {v : Json} {list list' : List Selection} {path : List PathElement}
      {site : Site} (h : LeadsTo c list (.value inner v) path list' site) :
      LeadsTo c list (.value (.nonNull inner) v) path list' site
  | item {item : FieldType} {items : List Json} {i : Nat} {v : Json} {list list' : List Selection}
      {path : List PathElement} {site : Site} (hv : items[i]? = some v)
      (h : LeadsTo c list (.value item v) path list' site) :
      LeadsTo c list (.value (.list item) (.arr items)) (.index i :: path) list' site
  | composite {name : String} {members : Json.Object} {list list' : List Selection}
      {path : List PathElement} {site : Site} (hname : c.schema.isComposite name = true)
      (h : LeadsTo c list (.object name members) path list' site) :
      LeadsTo c list (.value (.named name) (.obj members)) path list' site

namespace LeadsTo

variable {c : Context} {list list' : List Selection} {site site' : Site} {path : List PathElement}

/-- The path alone leads to the value that stands there. -/
theorem at?_eq (h : LeadsTo c list site path list' site') :
    site.json.at? path = some site'.json := by
  induction h with
  | here => rfl
  | field _ _ hv _ ih =>
    show (Entries.get? _ _).bind _ = _
    rw [hv]
    exact ih
  | nonNull _ ih => exact ih
  | item hv _ ih =>
    show (_[_]?).bind _ = _
    rw [hv]
    exact ih
  | composite _ _ ih => exact ih

/-- What a list leads to, one of the lists that its selections are taken from leads to. -/
theorem exists_of_lists {lists : List (List Selection)} (hne : lists ≠ [])
    (hsub : ∀ s ∈ list, ∃ l ∈ lists, s ∈ l) (h : LeadsTo c list site path list' site') :
    ∃ l ∈ lists, ∃ list'', LeadsTo c l site path list'' site' := by
  induction h with
  | here =>
    obtain ⟨l, hl⟩ := List.exists_mem_of_ne_nil _ hne
    exact ⟨l, hl, l, .here⟩
  | field hf hi hv h _ =>
    cases hf with
    | direct hf =>
      obtain ⟨l, hl, hmem⟩ := hsub _ hf
      exact ⟨l, hl, _, .field (.direct hmem) hi hv h⟩
    | through hs hc happlies hf =>
      obtain ⟨l, hl, hmem⟩ := hsub _ hs
      exact ⟨l, hl, _, .field (.through hmem hc happlies hf) hi hv h⟩
  | nonNull _ ih =>
    obtain ⟨l, hl, list'', h⟩ := ih hsub
    exact ⟨l, hl, list'', .nonNull h⟩
  | item hv _ ih =>
    obtain ⟨l, hl, list'', h⟩ := ih hsub
    exact ⟨l, hl, list'', .item hv h⟩
  | composite hname _ ih =>
    obtain ⟨l, hl, list'', h⟩ := ih hsub
    exact ⟨l, hl, list'', .composite hname h⟩

end LeadsTo

end Materialization

end QueryShapes
