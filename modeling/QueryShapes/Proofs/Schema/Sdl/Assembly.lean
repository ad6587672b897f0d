/-
  What the definitions of a text are put together to.

  Definitions and extensions enter one after the other; an extension that stands before
  its type waits for it.  Every step keeps each type under its own name and no name
  twice (`Collected`), and what comes out does not depend on where the extensions stand:
  a type has what its definition says and behind that what the extensions of its name
  and kind add, in the order of the text (`Enters`).  So the types of an assembled text
  are the given ones and those that the text defines, all extended, and no part of one
  comes twice (`assembled_of_assemble`).
-/
import QueryShapes.Proofs.Entries
import QueryShapes.Proofs.Except
import QueryShapes.Proofs.Schema.Sdl.Names
import QueryShapes.Schema.Sdl.Assembly

namespace QueryShapes.Sdl

/-! ## Extensions -/

/-- The type extensions of a text. -/
def typeExtensions (definitions : List Definition) : List TypeItem :=
  definitions.filterMap fun
    | .typeExtension addition => some addition
    | _ => none

namespace TypeItem

variable {t : TypeItem} {additions : List TypeItem}

/-- A type with what extensions of its name and kind add. -/
def completed (t : TypeItem) (additions : List TypeItem) : TypeItem :=
  (additions.filter fun a => a.name == t.name && a.kind == t.kind).foldl extend t

theorem completed_cons (t a : TypeItem) (rest : List TypeItem) : t.completed (a :: rest) =
    if a.name = t.name ∧ a.kind = t.kind then (t.extend a).completed rest
    else t.completed rest := by
  unfold completed
  rw [List.filter_cons]
  simp only [Bool.and_eq_true, beq_iff_eq]
  split
  · rfl
  · rfl

theorem completed_cons_of_ne {a : TypeItem} (h : a.name ≠ t.name) (rest : List TypeItem) :
    t.completed (a :: rest) = t.completed rest := by
  rw [completed_cons, if_neg fun heq => h heq.1]

theorem name_completed (t : TypeItem) (additions : List TypeItem) :
    (t.completed additions).name = t.name := by
  induction additions generalizing t with
  | nil => rfl
  | cons a rest ih =>
    rw [completed_cons]
    split
    · exact ih (t.extend a)
    · exact ih t

theorem kind_completed (t : TypeItem) (additions : List TypeItem) :
    (t.completed additions).kind = t.kind := by
  induction additions generalizing t with
  | nil => rfl
  | cons a rest ih =>
    rw [completed_cons]
    split
    · exact ih (t.extend a)
    · exact ih t

theorem completed_append (t : TypeItem) (first second : List TypeItem) :
    t.completed (first ++ second) = (t.completed first).completed second := by
  induction first generalizing t with
  | nil => rfl
  | cons a rest ih =>
    rw [List.cons_append, completed_cons, completed_cons]
    split
    · exact ih (t.extend a)
    · exact ih t

/-- What extends another type does not matter. -/
theorem completed_filter {name : String} (h : t.name ≠ name) (additions : List TypeItem) :
    t.completed (additions.filter (·.name != name)) = t.completed additions := by
  unfold completed
  rw [List.filter_filter]
  refine congrArg (List.foldl extend t) (List.filter_congr fun a _ => ?_)
  by_cases ha : a.name = t.name
  · simp [ha, h]
  · simp [ha]

theorem Shaped.extend {addition : TypeItem} (ht : t.Shaped) (ha : addition.Shaped)
    (hkind : addition.kind = t.kind) : (t.extend addition).Shaped where
  members := by
    intro hunion
    exact List.append_eq_nil_iff.mpr ⟨ht.members hunion, ha.members (hkind ▸ hunion)⟩
  implements := by
    intro hobject hinterface
    exact List.append_eq_nil_iff.mpr ⟨ht.implements hobject hinterface,
      ha.implements (hkind ▸ hobject) (hkind ▸ hinterface)⟩

theorem Legal.extend {addition : TypeItem} (ht : t.Legal) (ha : addition.Legal)
    (hkind : addition.kind = t.kind) : (t.extend addition).Legal where
  shaped := ht.shaped.extend ha.shaped hkind
  name := ht.name
  fields := List.forall_mem_append.mpr ⟨ht.fields, ha.fields⟩
  values := List.forall_mem_append.mpr ⟨ht.values, ha.values⟩
  inputs := List.forall_mem_append.mpr ⟨ht.inputs, ha.inputs⟩

theorem Legal.completed (ht : t.Legal) (ha : ∀ a ∈ additions, a.Legal) :
    (t.completed additions).Legal := by
  induction additions generalizing t with
  | nil => exact ht
  | cons a rest ih =>
    obtain ⟨hfirst, hrest⟩ := List.forall_mem_cons.mp ha
    rw [completed_cons]
    split
    next heq => exact ih (ht.extend hfirst heq.2) hrest
    next => exact ih ht hrest

end TypeItem

/-! ## Types -/

variable {types types' : Entries TypeItem} {early : List TypeItem} {definitions : List Definition}
  {name : String} {t item : TypeItem}

/-- Every type stands under its own name, no name stands twice, and what the text defines is
    legal. -/
structure Collected (types : Entries TypeItem) : Prop where
  nodup : types.keys.Nodup
  name : ∀ {name t}, types.get? name = some t → t.name = name
  shaped : ∀ {name t}, types.get? name = some t → t.Shaped
  legal : ∀ {name t}, types.get? name = some t → isGiven name = false → t.Legal

theorem Collected.insert (h : Collected types) (hname : t.name = name) (hshaped : t.Shaped)
    (hlegal : isGiven name = false → t.Legal) : Collected (types.insert name t) where
  nodup := Entries.nodup_keys_insert h.nodup _ _
  name := by
    intro key t' hfound
    rw [Entries.get?_insert] at hfound
    split at hfound
    next heq =>
      cases hfound
      exact hname.trans heq
    next => exact h.name hfound
  shaped := by
    intro key t' hfound
    rw [Entries.get?_insert] at hfound
    split at hfound
    next =>
      cases hfound
      exact hshaped
    next => exact h.shaped hfound
  legal := by
    intro key t' hfound hfree
    rw [Entries.get?_insert] at hfound
    split at hfound
    next heq =>
      cases hfound
      exact hlegal (heq ▸ hfree)
    next => exact h.legal hfound hfree

theorem not_contains_of_insert {key : String} (h : (types.insert key t).contains name = false) :
    key ≠ name ∧ types.contains name = false := by
  rwa [Entries.contains_insert, Bool.or_eq_false_iff, beq_eq_false_iff_ne] at h

/-- What definitions make of types there are, with extensions before them that wait for their
    types. -/
structure Enters (types : Entries TypeItem) (early : List TypeItem) (definitions : List Definition)
    (types' : Entries TypeItem) : Prop where
  collected : Collected types'
  kept : ∀ {name t}, types.get? name = some t →
    types'.get? name = some (t.completed (typeExtensions definitions))
  new : ∀ {item}, .type item ∈ definitions → types.contains item.name = false
  defined : ∀ {item}, .type item ∈ definitions →
    types'.get? item.name = some (item.completed (early ++ typeExtensions definitions))
  only : ∀ {name}, types'.contains name = true →
    types.contains name = true ∨ ∃ item, .type item ∈ definitions ∧ item.name = name

namespace Enters

variable {d : Definition} {rest : List Definition} {addition : TypeItem}

theorem nil (h : Collected types) : Enters types early [] types where
  collected := h
  kept := id
  new := nofun
  defined := nofun
  only := Or.inl

/-- A type is defined. -/
theorem define (hnew : types.contains item.name = false)
    (h : Enters (types.insert item.name (item.completed early)) (early.filter (·.name != item.name))
      rest types') : Enters types early (.type item :: rest) types' where
  collected := h.collected
  kept := by
    intro name t hfound
    apply h.kept
    rw [Entries.get?_insert, if_neg, hfound]
    rintro rfl
    rw [Entries.contains, hfound] at hnew
    cases hnew
  new := by
    intro other hmem
    rcases List.mem_cons.mp hmem with heq | hmem
    · cases heq
      exact hnew
    · exact (not_contains_of_insert (h.new hmem)).2
  defined := by
    intro other hmem
    rcases List.mem_cons.mp hmem with heq | hmem
    · cases heq
      rw [h.kept (Entries.get?_insert_self types _ _), TypeItem.completed_append]
      rfl
    · have hother : other.name ≠ item.name := (not_contains_of_insert (h.new hmem)).1.symm
      rw [h.defined hmem, TypeItem.completed_append, TypeItem.completed_append,
        TypeItem.completed_filter hother]
      rfl
  only := by
    intro name hname
    rcases h.only hname with hold | ⟨other, hmem, hother⟩
    · rw [Entries.contains_insert, Bool.or_eq_true, beq_iff_eq] at hold
      rcases hold with heq | hold
      · exact Or.inr ⟨item, List.mem_cons_self, heq⟩
      · exact Or.inl hold
    · exact Or.inr ⟨other, List.mem_cons_of_mem _ hmem, hother⟩

/-- A type that is there is extended. -/
theorem extend (htypes : Collected types) (hfound : types.get? addition.name = some t)
    (hkind : t.kind = addition.kind)
    (h : Enters (types.insert t.name (t.extend addition)) early rest types') :
    Enters types early (.typeExtension addition :: rest) types' where
  collected := h.collected
  kept := by
    intro name t₀ hfound₀
    have hname := htypes.name hfound
    show types'.get? name = some (t₀.completed (addition :: typeExtensions rest))
    by_cases heq : addition.name = name
    · subst heq
      obtain rfl : t = t₀ := Option.some.inj (hfound.symm.trans hfound₀)
      rw [TypeItem.completed_cons, if_pos ⟨hname.symm, hkind.symm⟩]
      apply h.kept
      rw [hname, Entries.get?_insert_self]
    · rw [TypeItem.completed_cons_of_ne (htypes.name hfound₀ ▸ heq)]
      apply h.kept
      rw [hname, Entries.get?_insert, if_neg heq, hfound₀]
  new := by
    intro item hmem
    rcases List.mem_cons.mp hmem with heq | hmem
    · cases heq
    · exact (not_contains_of_insert (h.new hmem)).2
  defined := by
    intro item hmem
    rcases List.mem_cons.mp hmem with heq | hmem
    · cases heq
    · have hitem : addition.name ≠ item.name :=
        htypes.name hfound ▸ (not_contains_of_insert (h.new hmem)).1
      have hsame : item.completed (early ++ addition :: typeExtensions rest) =
          item.completed (early ++ typeExtensions rest) := by
        have hearly : addition.name ≠ (item.completed early).name := by
          rwa [TypeItem.name_completed]
        rw [TypeItem.completed_append, TypeItem.completed_cons_of_ne hearly,
          TypeItem.completed_append]
      exact (h.defined hmem).trans (congrArg some hsame.symm)
  only := by
    intro name hname
    rcases h.only hname with hold | ⟨item, hmem, hitem⟩
    · rw [Entries.contains_insert, Bool.or_eq_true, beq_iff_eq] at hold
      rcases hold with rfl | hold
      · rw [htypes.name hfound]
        exact Or.inl (Option.isSome_iff_exists.mpr ⟨t, hfound⟩)
      · exact Or.inl hold
    · exact Or.inr ⟨item, List.mem_cons_of_mem _ hmem, hitem⟩

/-- An extension waits for its type. -/
theorem wait (htypes : Collected types) (hnone : types.get? addition.name = none)
    (h : Enters types (early ++ [addition]) rest types') :
    Enters types early (.typeExtension addition :: rest) types' where
  collected := h.collected
  kept := by
    intro name t hfound
    have hname : addition.name ≠ t.name := by
      intro heq
      rw [heq, htypes.name hfound, hfound] at hnone
      cases hnone
    show types'.get? name = some (t.completed (addition :: typeExtensions rest))
    rw [TypeItem.completed_cons_of_ne hname]
    exact h.kept hfound
  new := by
    intro item hmem
    rcases List.mem_cons.mp hmem with heq | hmem
    · cases heq
    · exact h.new hmem
  defined := by
    intro item hmem
    rcases List.mem_cons.mp hmem with heq | hmem
    · cases heq
    · rw [h.defined hmem, List.append_assoc]
      rfl
  only := by
    intro name hname
    rcases h.only hname with hold | ⟨item, hmem, hitem⟩
    · exact Or.inl hold
    · exact Or.inr ⟨item, List.mem_cons_of_mem _ hmem, hitem⟩

/-- A definition that is none of a type. -/
theorem skip (hitem : ∀ item, d ≠ .type item) (haddition : ∀ addition, d ≠ .typeExtension addition)
    (h : Enters types early rest types') : Enters types early (d :: rest) types' := by
  have hsame : typeExtensions (d :: rest) = typeExtensions rest := by
    cases d with
    | typeExtension addition => exact absurd rfl (haddition addition)
    | _ => rfl
  have hmem : ∀ item, .type item ∈ d :: rest → .type item ∈ rest := by
    intro item hmem
    rcases List.mem_cons.mp hmem with heq | hmem
    · exact absurd heq.symm (hitem item)
    · exact hmem
  refine ⟨h.collected, ?_, fun hm => h.new (hmem _ hm), ?_, ?_⟩
  · rw [hsame]
    exact h.kept
  · rw [hsame]
    exact fun hm => h.defined (hmem _ hm)
  · intro name hname
    rcases h.only hname with hold | ⟨item, hmem, hitem⟩
    · exact Or.inl hold
    · exact Or.inr ⟨item, List.mem_cons_of_mem d hmem, hitem⟩

end Enters

/-- What the definitions of a text make of the types there are. -/
theorem enters_of_collectTypes (h : collectTypes types early definitions = .ok types')
    (htypes : Collected types) (hearly : ∀ e ∈ early, e.Legal)
    (hdefinitions : ∀ d ∈ definitions, d.Legal) : Enters types early definitions types' := by
  -- The induction is on the definitions.  The extensions that wait for their types are legal all
  -- along, so a type that takes them up is so too.
  fun_induction collectTypes types early definitions with
  | case1 types =>
    cases h
    exact Enters.nil htypes
  | case2 | case3 | case6 => cases h
  | case4 types early item rest hnew additions ih =>
    obtain ⟨hitem, hrest⟩ := List.forall_mem_cons.mp hdefinitions
    have hnew := Bool.eq_false_of_not_eq_true hnew
    have hlegal : (item.completed early).Legal := TypeItem.Legal.completed hitem hearly
    have hwaiting : ∀ e ∈ early.filter (·.name != item.name), e.Legal := fun e he =>
      hearly e (List.mem_filter.mp he).1
    rw [← Entries.insert_of_not_contains _ hnew] at h ih
    have hcollected := htypes.insert (item.name_completed early) hlegal.shaped fun _ => hlegal
    exact (ih h hcollected hwaiting hrest).define hnew
  | case5 types early addition rest t hfound hkind ih =>
    obtain ⟨haddition, hrest⟩ := List.forall_mem_cons.mp hdefinitions
    have hlegal : isGiven t.name = false → (t.extend addition).Legal := fun hfree =>
      (htypes.legal hfound (htypes.name hfound ▸ hfree)).extend haddition hkind.symm
    have hshaped : (t.extend addition).Shaped :=
      (htypes.shaped hfound).extend haddition.shaped hkind.symm
    exact (ih h (htypes.insert rfl hshaped hlegal) hearly hrest).extend htypes hfound hkind
  | case7 types early addition rest hnone ih =>
    obtain ⟨haddition, hrest⟩ := List.forall_mem_cons.mp hdefinitions
    have hwaiting : ∀ e ∈ early ++ [addition], e.Legal :=
      List.forall_mem_append.mpr ⟨hearly, List.forall_mem_singleton.mpr haddition⟩
    exact (ih h htypes hwaiting hrest).wait htypes hnone
  | case8 types early d rest hitem haddition ih =>
    obtain ⟨-, hrest⟩ := List.forall_mem_cons.mp hdefinitions
    exact (ih h htypes hearly hrest).skip hitem haddition

/-! ## Given types -/

theorem isGiven_iff : isGiven name = true ↔ ∃ g ∈ givenTypes, g.name = name := by
  unfold isGiven
  simp only [List.any_eq_true, beq_iff_eq]

theorem get?_given_iff :
    Entries.get? (givenTypes.map fun t => (t.name, t)) name = some t ↔
      t ∈ givenTypes ∧ t.name = name := by
  rw [Entries.get?_eq_some_iff (by decide), List.mem_map]
  constructor
  · intro ⟨g, hg, heq⟩
    cases heq
    exact ⟨hg, rfl⟩
  · intro ⟨ht, hname⟩
    exact ⟨t, ht, by rw [hname]⟩

theorem contains_given (name : String) :
    Entries.contains (givenTypes.map fun t => (t.name, t)) name = isGiven name := by
  rw [Bool.eq_iff_iff, isGiven_iff, Entries.contains, Option.isSome_iff_exists]
  simp only [get?_given_iff]

theorem collected_given : Collected (givenTypes.map fun t => (t.name, t)) where
  nodup := by decide
  name := fun hfound => (get?_given_iff.mp hfound).2
  shaped := by
    intro name t hfound
    have hgiven : ∀ g ∈ givenTypes, g.members = [] ∧ g.implements = [] := by decide
    obtain ⟨hmembers, himplements⟩ := hgiven t (get?_given_iff.mp hfound).1
    exact ⟨fun _ => hmembers, fun _ _ => himplements⟩
  legal := by
    intro name t hfound hnew
    rw [isGiven_iff.mpr ⟨t, get?_given_iff.mp hfound⟩] at hnew
    cases hnew

/-! ## Texts -/

theorem allDifferent_iff {names : List String} : allDifferent names = true ↔ names.Nodup := by
  induction names with
  | nil => exact iff_of_true rfl List.nodup_nil
  | cons first rest ih =>
    rw [allDifferent, Bool.and_eq_true, ih, List.nodup_cons, Bool.not_eq_true',
      List.contains_eq_mem, decide_eq_false_iff_not]

/-- What the definitions of a text make up: the given types and those of the text, each under its
    own name and extended. -/
structure Assembled (definitions : List Definition) (s : TypeSystem) : Prop where
  collected : Collected s.types
  given : ∀ g ∈ givenTypes, s.types.get? g.name = some (g.completed (typeExtensions definitions))
  new : ∀ {item}, .type item ∈ definitions → isGiven item.name = false
  defined : ∀ {item}, .type item ∈ definitions →
    s.types.get? item.name = some (item.completed (typeExtensions definitions))
  only : ∀ {name}, s.types.contains name = true → isGiven name = false →
    ∃ item, .type item ∈ definitions ∧ item.name = name
  partsDiffer : ∀ t ∈ s.types.values, t.partsDiffer = true

/-- A search for what fails a test that finds nothing. -/
theorem all_of_find? {α : Type} {xs : List α} {test : α → Bool}
    (h : ∀ x, xs.find? (!test ·) ≠ some x) : ∀ x ∈ xs, test x = true := by
  intro x hx
  have hpasses := List.find?_eq_none.mp (Option.eq_none_iff_forall_ne_some.mpr h) x hx
  rwa [Bool.not_eq_true', Bool.not_eq_false] at hpasses

theorem assemble_eq_ok {s : TypeSystem} (h : assemble definitions = .ok s) :
    collectTypes (givenTypes.map fun t => (t.name, t)) [] definitions = .ok s.types ∧
      (∀ t ∈ s.types.values, t.partsDiffer = true) ∧
      assembleSchema s.types definitions = .ok s.schema := by
  unfold assemble at h
  obtain ⟨types, htypes, h⟩ := bind_eq_ok.mp h
  dsimp only at h
  split at h
  · cases h
  · next hnone =>
    obtain ⟨directives, -, h⟩ := bind_eq_ok.mp h
    obtain ⟨schema, hschema, h⟩ := bind_eq_ok.mp h
    cases h
    refine ⟨htypes, ?_, hschema⟩
    exact all_of_find? hnone

theorem assembled_of_assemble {s : TypeSystem} (h : assemble definitions = .ok s)
    (hdefinitions : ∀ d ∈ definitions, d.Legal) : Assembled definitions s := by
  obtain ⟨htypes, hdiffer, -⟩ := assemble_eq_ok h
  have henters := enters_of_collectTypes htypes collected_given (List.forall_mem_nil _) hdefinitions
  refine ⟨henters.collected, ?_, ?_, henters.defined, ?_, hdiffer⟩
  · intro g hg
    exact henters.kept (get?_given_iff.mpr ⟨hg, rfl⟩)
  · intro item hmem
    have hfresh := henters.new hmem
    rwa [← contains_given]
  · intro name hname hfree
    rcases henters.only hname with hgiven | hitem
    · rw [contains_given, hfree] at hgiven
      cases hgiven
    · exact hitem

end QueryShapes.Sdl
