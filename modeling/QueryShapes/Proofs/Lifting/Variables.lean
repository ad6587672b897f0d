/-
  The variables that lifting makes of parameters.

  `Lifts` says what lifting does to the declarations: it appends one for every
  parameter it meets, in reading order, under a name that no other declaration
  has.  So the variables of a lifted operation are all different, they are the
  declared ones, and writing each one's parameter back in its place undoes the
  lifting (`lift_eq`).
-/
import QueryShapes.Proofs.Lifting.Naming

namespace QueryShapes

open Selection

namespace FieldArgument

/-- The variable that an argument is bound to. -/
def variableName? (a : FieldArgument) : Option String :=
  match a.value with
  | .documentVariable name => some name
  | _ => none

/-- The declared type of an argument bound to a parameter, and the parameter. -/
def parameterUse? (a : FieldArgument) : Option (FieldType × String) :=
  match a.value with
  | .parameter name => some (a.type, name)
  | _ => none

theorem variableName?_eq_some {a : FieldArgument} {name : String} :
    a.variableName? = some name ↔ a.value = .documentVariable name := by
  unfold variableName?
  cases a.value <;> simp

theorem parameterUse?_eq_some {a : FieldArgument} {type : FieldType} {parameter : String} :
    a.parameterUse? = some (type, parameter) ↔ a.type = type ∧ a.value = .parameter parameter := by
  unfold parameterUse?
  cases a.value <;> simp

end FieldArgument

namespace Lifting

/-! ## What lifting declares -/

/-- The variables of arguments in reading order. -/
def variableNames (arguments : List FieldArgument) : List String :=
  arguments.filterMap (·.variableName?)

/-- The parameters of arguments in reading order, each with the type of its argument. -/
def parameterUses (arguments : List FieldArgument) : List (FieldType × String) :=
  arguments.filterMap (·.parameterUse?)

theorem mem_variableNames_iff {arguments : List FieldArgument} {name : String} :
    name ∈ variableNames arguments ↔ ∃ a ∈ arguments, a.value = .documentVariable name := by
  simp only [variableNames, List.mem_filterMap, FieldArgument.variableName?_eq_some]

theorem mem_parameterUses_iff {arguments : List FieldArgument} {type : FieldType}
    {parameter : String} :
    (type, parameter) ∈ parameterUses arguments ↔
      ∃ a ∈ arguments, a.type = type ∧ a.value = .parameter parameter := by
  simp only [parameterUses, List.mem_filterMap, FieldArgument.parameterUse?_eq_some]

/-- The arguments are lifted: no parameter is left, and the declarations grow by one for every
    parameter that there was. -/
structure Lifts (before after : Declarations) (arguments lifted : List FieldArgument) :
    Prop where
  grows : ∃ new : Declarations, after = before ++ new ∧
    variableNames lifted = new.map (·.name) ∧
    parameterUses arguments = new.map fun d => (d.type, d.parameter)
  names : (before.map (·.name)).Nodup → (after.map (·.name)).Nodup
  noParameters : parameterUses lifted = []

namespace Lifts

variable {before middle after : Declarations} {as bs as' bs' : List FieldArgument}

theorem nil (declared : Declarations) : Lifts declared declared [] [] :=
  ⟨⟨[], by simp [variableNames, parameterUses]⟩, id, rfl⟩

theorem append (h : Lifts before middle as as') (h' : Lifts middle after bs bs') :
    Lifts before after (as ++ bs) (as' ++ bs') := by
  obtain ⟨new, rfl, hv, hp⟩ := h.grows
  obtain ⟨new', rfl, hv', hp'⟩ := h'.grows
  refine ⟨⟨new ++ new', List.append_assoc .., ?_, ?_⟩, fun hn => h'.names (h.names hn), ?_⟩
  · unfold variableNames at hv hv' ⊢
    rw [List.filterMap_append, hv, hv', List.map_append]
  · unfold parameterUses at hp hp' ⊢
    rw [List.filterMap_append, hp, hp', List.map_append]
  · have hl := h.noParameters
    have hl' := h'.noParameters
    unfold parameterUses at hl hl' ⊢
    rw [List.filterMap_append, hl, hl', List.append_nil]

/-- An argument that is bound to no parameter and no variable is kept. -/
theorem keep {a : FieldArgument} (hp : a.parameterUse? = none) (hv : a.variableName? = none)
    (declared : Declarations) : Lifts declared declared [a] [a] := by
  refine ⟨⟨[], ?_⟩, id, ?_⟩ <;> simp [variableNames, parameterUses, hp, hv]

/-- A parameter becomes a variable of a name that no other declaration has. -/
theorem declare {a : FieldArgument} {parameter name : String} (ha : a.value = .parameter parameter)
    {declared : Declarations} (hname : name ∉ declared.map (·.name)) :
    Lifts declared (declared ++ [⟨name, a.type, parameter⟩]) [a]
      [{ a with value := .documentVariable name }] := by
  refine ⟨⟨[⟨name, a.type, parameter⟩], rfl, ?_, ?_⟩, fun hn => ?_, ?_⟩
  · simp [variableNames, FieldArgument.variableName?]
  · simp [parameterUses, FieldArgument.parameterUse?, ha]
  · rw [List.map_append, List.map_singleton, ← List.concat_eq_append]
    exact hn.concat hname
  · simp [parameterUses, FieldArgument.parameterUse?]

/-- Arguments that are renamed are lifted, if none of them was a variable before. -/
theorem of_renames {places places' : List PlacedArgument} (h : Renames before after places places')
    (hv : ∀ a ∈ places.map (·.argument), a.variableName? = none) :
    Lifts before after (places.map (·.argument)) (places'.map (·.argument)) := by
  induction h with
  | nil declared => exact .nil declared
  | kept hvalue _ ih =>
    rw [List.map_cons, List.forall_mem_cons] at hv
    refine (Lifts.keep ?_ hv.1 _).append (ih hv.2)
    exact Option.eq_none_iff_forall_ne_some.mpr fun use huse =>
      hvalue use.2 (FieldArgument.parameterUse?_eq_some.mp huse).2
  | declared hvalue hname _ ih =>
    rw [List.map_cons, List.forall_mem_cons] at hv
    exact (Lifts.declare hvalue hname.not_mem).append (ih hv.2)

end Lifts

theorem liftArguments_lifts (path : List String) (declared : Declarations)
    {arguments : List FieldArgument} (h : ∀ a ∈ arguments, a.variableName? = none) :
    Lifts declared (liftArguments path declared arguments).2 arguments
      (liftArguments path declared arguments).1 := by
  have hid : ∀ as : List FieldArgument, (as.map (.mk path)).map PlacedArgument.argument = as :=
    fun as => by rw [List.map_map]; exact List.map_id as
  have hl := Lifts.of_renames (liftArguments_renames path declared arguments)
  rw [hid, hid] at hl
  exact hl h

theorem liftSelections_lifts (path : List String) (declared : Declarations)
    {selections : List Selection} (h : ∀ a ∈ allArguments selections, a.variableName? = none) :
    Lifts declared (liftSelections path declared selections).2 (allArguments selections)
      (allArguments (liftSelections path declared selections).1) := by
  have hl := Lifts.of_renames (liftSelections_renames path declared selections)
  rw [map_argument_placedArguments, map_argument_placedArguments] at hl
  exact hl h

/-- The arguments of an operation with its fragments, in reading order. -/
def documentArguments (selections : List Selection) (fragments : List FragmentDefinition) :
    List FieldArgument :=
  allArguments selections ++ fragments.flatMap (allArguments ·.selections)

/-- The fields of an operation with its fragments, in reading order. -/
def documentFields (selections : List Selection) (fragments : List FragmentDefinition) :
    List Field :=
  allFields selections ++ fragments.flatMap (allFields ·.selections)

theorem documentArguments_eq (selections : List Selection) (fragments : List FragmentDefinition) :
    documentArguments selections fragments =
      (documentFields selections fragments).flatMap (·.arguments) := by
  unfold documentArguments documentFields allArguments
  rw [List.flatMap_append, List.flatMap_assoc]

theorem liftFragments_lifts (declared : Declarations) {fragments : List FragmentDefinition}
    (h : ∀ a ∈ fragments.flatMap (allArguments ·.selections), a.variableName? = none) :
    Lifts declared (liftFragments declared fragments).2
      (fragments.flatMap (allArguments ·.selections))
      ((liftFragments declared fragments).1.flatMap (allArguments ·.selections)) := by
  have hl := Lifts.of_renames (liftFragments_renames declared fragments)
  rw [map_argument_fragmentPlaces, map_argument_fragmentPlaces] at hl
  exact hl h

/-! ## Writing parameters back -/

/-- The parameter that a declared variable stands for; other values are kept. -/
def restoreValue (declared : Declarations) : ArgumentValue → ArgumentValue
  | .documentVariable name =>
    match declared.find? (·.name = name) with
    | some d => .parameter d.parameter
    | none => .documentVariable name
  | value => value

/-- Where no name repeats, every declaration is found under its name. -/
theorem find?_of_mem {declared : Declarations} (hn : (declared.map (·.name)).Nodup)
    {d : VariableDeclaration} (hd : d ∈ declared) :
    declared.find? (·.name = d.name) = some d := by
  induction declared with
  | nil => cases hd
  | cons e rest ih =>
    rw [List.map_cons, List.nodup_cons] at hn
    rcases List.mem_cons.mp hd with rfl | hd
    · simp
    · have hne : e.name ≠ d.name := fun h => hn.1 (h ▸ List.mem_map_of_mem hd)
      rw [List.find?_cons_of_neg (by simpa using hne)]
      exact ih hn.2 hd

theorem restoreValue_of_mem {declared : Declarations} (hn : (declared.map (·.name)).Nodup)
    {d : VariableDeclaration} (hd : d ∈ declared) :
    restoreValue declared (.documentVariable d.name) = .parameter d.parameter := by
  simp [restoreValue, find?_of_mem hn hd]

theorem Lifts.isPrefix {before after : Declarations} {as as' : List FieldArgument}
    (h : Lifts before after as as') : before <+: after := by
  obtain ⟨new, rfl, -⟩ := h.grows
  exact List.prefix_append before new

/-- Writing parameters back changes variables only. -/
theorem restoreValue_of_ne (declared : Declarations) {v : ArgumentValue}
    (h : ∀ name, v ≠ .documentVariable name) : restoreValue declared v = v := by
  cases v with
  | documentVariable name => exact absurd rfl (h name)
  | _ => rfl

theorem mapValue_restoreValue_eq (declared : Declarations) {a : FieldArgument}
    (h : a.variableName? = none) : a.mapValue (restoreValue declared) = a := by
  have hvalue : restoreValue declared a.value = a.value := by
    refine restoreValue_of_ne declared fun name hv => ?_
    rw [FieldArgument.variableName?_eq_some.mpr hv] at h
    cases h
  rw [FieldArgument.mapValue, hvalue]

/-- Writing the parameters of all declarations back undoes the lifting of arguments. -/
theorem liftArguments_restores {final : Declarations} (hn : (final.map (·.name)).Nodup)
    (path : List String) (declared : Declarations) {arguments : List FieldArgument}
    (h : ∀ a ∈ arguments, a.variableName? = none)
    (hf : (liftArguments path declared arguments).2 <+: final) :
    (liftArguments path declared arguments).1.map (FieldArgument.mapValue (restoreValue final)) =
      arguments := by
  induction arguments generalizing declared with
  | nil => rfl
  | cons a rest ih =>
    have hrest : ∀ b ∈ rest, b.variableName? = none := fun b hb =>
      h b (List.mem_cons_of_mem _ hb)
    have ih := fun declared => ih declared hrest
    have hkeep : ∀ declared', (liftArguments path declared' rest).2 <+: final →
        (a :: (liftArguments path declared' rest).1).map
          (FieldArgument.mapValue (restoreValue final)) = a :: rest := by
      intro declared' hf
      rw [List.map_cons, ih _ hf,
        mapValue_restoreValue_eq final (h a List.mem_cons_self)]
    rw [liftArguments] at hf ⊢
    cases hv : a.value with
    | parameter parameter =>
      simp only [hv] at hf ⊢
      have hmem : (⟨freshName (declared.map (·.name)) (baseName path a.name), a.type, parameter⟩ :
          VariableDeclaration) ∈ final :=
        ((liftArguments_lifts path _ hrest).isPrefix.trans hf).subset (by simp)
      rw [List.map_cons, ih _ hf]
      refine congrArg (· :: rest) ?_
      unfold FieldArgument.mapValue
      rw [restoreValue_of_mem hn hmem, ← hv]
    | literal l =>
      simp only [hv] at hf ⊢
      exact hkeep _ hf
    | documentVariable name =>
      simp only [hv] at hf ⊢
      exact hkeep _ hf
    | default =>
      simp only [hv] at hf ⊢
      exact hkeep _ hf
    | unbound =>
      simp only [hv] at hf ⊢
      exact hkeep _ hf

/-- Writing the parameters of all declarations back undoes the lifting of selections. -/
theorem liftSelections_restores {final : Declarations} (hn : (final.map (·.name)).Nodup)
    (path : List String) (declared : Declarations) {selections : List Selection}
    (h : ∀ a ∈ allArguments selections, a.variableName? = none)
    (hf : (liftSelections path declared selections).2 <+: final) :
    mapValues (restoreValue final) (liftSelections path declared selections).1 = selections := by
  induction selections using listInduction generalizing path declared with
  | nil => simp [liftSelections, mapValues]
  | field f subs rest ihs ihr =>
    simp only [allArguments_field, List.mem_append] at h
    simp only [liftSelections] at hf ⊢
    have hsubs := fun a ha => h a (Or.inr (Or.inl ha))
    have hrest := fun a ha => h a (Or.inr (Or.inr ha))
    have hf' := (liftSelections_lifts path _ hrest).isPrefix.trans hf
    have hf'' := (liftSelections_lifts _ _ hsubs).isPrefix.trans hf'
    have hargs := liftArguments_restores hn _ _ (fun a ha => h a (Or.inl ha)) hf''
    rw [mapValues, ihs _ _ hsubs hf', ihr _ _ hrest hf]
    unfold Field.mapValues
    rw [hargs]
  | spread name condition rest ihr =>
    simp only [allArguments_spread] at h
    simp only [liftSelections] at hf ⊢
    rw [mapValues, ihr _ _ h hf]
  | inline condition subs rest ihs ihr =>
    simp only [allArguments_inline, List.mem_append] at h
    simp only [liftSelections] at hf ⊢
    have hrest := fun a ha => h a (Or.inr ha)
    rw [mapValues, ihs _ _ (fun a ha => h a (Or.inl ha))
      ((liftSelections_lifts path _ hrest).isPrefix.trans hf), ihr _ _ hrest hf]
  | marker name condition subs rest ihs ihr =>
    simp only [allArguments_marker, List.mem_append] at h
    simp only [liftSelections] at hf ⊢
    have hrest := fun a ha => h a (Or.inr ha)
    rw [mapValues, ihs _ _ (fun a ha => h a (Or.inl ha))
      ((liftSelections_lifts path _ hrest).isPrefix.trans hf), ihr _ _ hrest hf]

theorem liftFragments_restores {final : Declarations} (hn : (final.map (·.name)).Nodup)
    (declared : Declarations) {fragments : List FragmentDefinition}
    (h : ∀ a ∈ fragments.flatMap (allArguments ·.selections), a.variableName? = none)
    (hf : (liftFragments declared fragments).2 <+: final) :
    (liftFragments declared fragments).1.map (FragmentDefinition.mapValues (restoreValue final)) =
      fragments := by
  induction fragments generalizing declared with
  | nil => rfl
  | cons d rest ih =>
    rw [List.flatMap_cons] at h
    simp only [List.mem_append] at h
    rw [liftFragments] at hf ⊢
    have hrest := fun a ha => h a (Or.inr ha)
    have hbody := liftSelections_restores hn [d.name] declared (fun a ha => h a (Or.inl ha))
      ((liftFragments_lifts _ hrest).isPrefix.trans hf)
    rw [List.map_cons, ih _ hrest hf]
    unfold FragmentDefinition.mapValues
    rw [hbody]

/-! ## The whole operation -/

/-- Lifting declares every parameter of an operation under a name of its own, changes nothing but
    the values of arguments, and is undone by writing the parameters back. -/
theorem lift_eq {set set' : SelectionSet} {fragments fragments' : List FragmentDefinition}
    {declared : Declarations} (hl : lift set fragments = (set', fragments', declared))
    (h : ∀ a ∈ documentArguments set.selections fragments, a.variableName? = none) :
    Lifts [] declared (documentArguments set.selections fragments)
        (documentArguments set'.selections fragments') ∧
      mapValues (restoreValue declared) set'.selections = set.selections ∧
      fragments'.map (FragmentDefinition.mapValues (restoreValue declared)) = fragments ∧
      set' = { set with selections := set'.selections } := by
  unfold lift at hl
  simp only [Prod.mk.injEq] at hl
  obtain ⟨rfl, rfl, rfl⟩ := hl
  unfold documentArguments at h ⊢
  simp only [List.mem_append] at h
  have hset := fun a ha => h a (Or.inl ha)
  have hfrag := fun a ha => h a (Or.inr ha)
  have hls := liftSelections_lifts [] [] hset
  have hlf := liftFragments_lifts (liftSelections [] [] set.selections).2 hfrag
  have hn := (hls.append hlf).names List.nodup_nil
  exact ⟨hls.append hlf, liftSelections_restores hn [] [] hset hlf.isPrefix,
    liftFragments_restores hn _ hfrag (List.prefix_refl _), rfl⟩

/-- Lifting is lossless and its names are fresh.  It declares one variable for every argument bound
    to a parameter, in reading order, with the type of the argument and its parameter; no two have
    one name.  Every such argument becomes its own variable, called after its place, and writing
    the parameters of the variables back restores the operation and its fragments. -/
theorem lift_lossless {set set' : SelectionSet} {fragments fragments' : List FragmentDefinition}
    {declared : Declarations} (hl : lift set fragments = (set', fragments', declared))
    (h : ∀ a ∈ documentArguments set.selections fragments, a.variableName? = none) :
    (declared.map fun d => (d.type, d.parameter)) =
        parameterUses (documentArguments set.selections fragments) ∧
      (declared.map (·.name)).Nodup ∧
      Renames [] declared (documentPlaces set.selections fragments)
        (documentPlaces set'.selections fragments') ∧
      mapValues (restoreValue declared) set'.selections = set.selections ∧
      fragments'.map (FragmentDefinition.mapValues (restoreValue declared)) = fragments ∧
      set' = { set with selections := set'.selections } := by
  obtain ⟨hlifts, hselections, hfragments, hset⟩ := lift_eq hl h
  obtain ⟨new, hnew, -, huses⟩ := hlifts.grows
  rw [List.nil_append] at hnew
  subst hnew
  refine ⟨huses.symm, hlifts.names List.nodup_nil, ?_, hselections, hfragments, hset⟩
  unfold lift at hl
  simp only [Prod.mk.injEq] at hl
  obtain ⟨rfl, rfl, rfl⟩ := hl
  exact (liftSelections_renames [] [] set.selections).append (liftFragments_renames _ fragments)

/-! ## Colliding names -/

/-- A hero asked for by its identifier. -/
def colliding (first second third : ArgumentValue) : SelectionSet :=
  ⟨.query, none, "Query", [
    .field ⟨"hero", none, "Query", .named "Hero", [⟨"id", .nonNull .id, first, none⟩], false⟩
      [.spread "hero" "Hero"],
    .inline "Query" [.field ⟨"hero", none, "Query", .named "Hero",
      [⟨"id", .nonNull .id, second, none⟩, ⟨"id_2", .id, third, none⟩], false⟩
      [.spread "hero" "Hero"]]]⟩

/-- A fragment of the name of the hero's response key, with an argument. -/
def collidingFragments (value : ArgumentValue) : List FragmentDefinition :=
  [⟨"hero", "Hero", [.field ⟨"id", none, "Hero", .string, [⟨"2", .int, value, none⟩], false⟩ []]⟩]

def collidingSet : SelectionSet :=
  colliding (.parameter "id") (.parameter "id") (.parameter "other")

def collidingLifted : SelectionSet :=
  colliding (.documentVariable "hero_id") (.documentVariable "hero_id_2")
    (.documentVariable "hero_id_2_2")

def collidingDeclared : Declarations := [⟨"hero_id", .nonNull .id, "id"⟩,
  ⟨"hero_id_2", .nonNull .id, "id"⟩, ⟨"hero_id_2_2", .id, "other"⟩, ⟨"hero_id_2_3", .int, "digits"⟩]

/-- Four arguments at two response paths: the second one takes the name of the third, and the
    fourth, whose path begins with a fragment, finds that of the third and its own taken. -/
theorem lift_lossless_colliding :
    lift collidingSet (collidingFragments (.parameter "digits")) = (collidingLifted,
        collidingFragments (.documentVariable "hero_id_2_3"), collidingDeclared) ∧
      (collidingDeclared.map (·.name)).Nodup ∧
      Renames [] collidingDeclared
        (documentPlaces collidingSet.selections (collidingFragments (.parameter "digits")))
        (documentPlaces collidingLifted.selections
          (collidingFragments (.documentVariable "hero_id_2_3"))) ∧
      mapValues (restoreValue collidingDeclared) collidingLifted.selections =
        collidingSet.selections := by
  have hlift : lift collidingSet (collidingFragments (.parameter "digits")) = (collidingLifted,
      collidingFragments (.documentVariable "hero_id_2_3"), collidingDeclared) := by cbv
  have hnone : ∀ a ∈ documentArguments collidingSet.selections
      (collidingFragments (.parameter "digits")), a.variableName? = none := by
    simp [collidingSet, colliding, collidingFragments, documentArguments, allArguments, allFields,
      FieldArgument.variableName?]
  obtain ⟨-, hnames, hrenames, hset, -, -⟩ := lift_lossless hlift hnone
  exact ⟨hlift, hnames, hrenames, hset⟩

end Lifting

end QueryShapes
