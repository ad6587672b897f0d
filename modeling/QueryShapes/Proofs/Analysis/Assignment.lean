/-
  What a call assigns to the arguments of a field.

  An input is assigned by its place among the declared arguments or by the name of
  one (`Assigns`).  What is supplied for the arguments is the list of all these
  assignments, if it repeats no name (`supplyNamed_eq_ok`), and from it every
  argument is given its value for itself.  So a call is bound exactly if it is an
  assignment of admissible inputs, each argument to what it is assigned, and the
  way in which the inputs are written does not matter (`bindArguments_assignment`).
-/
import QueryShapes.Proofs.Analysis.Typing
import QueryShapes.Proofs.Entries

namespace QueryShapes.Analysis

/-! ## Calls -/

/-- The value of an argument that is given the input. -/
def boundValue : ArgumentInput → ArgumentValue
  | .literal l => .literal l
  | .parameter p => .parameter p

section Calls

variable (definition : FieldDefinition) (positional : List ArgumentInput)
  (named : List (String × ArgumentInput))

/-- The call gives the argument an input: the one that stands where the argument is declared, or one
    under its name. -/
def Assigns (argument : ArgumentDefinition) (input : ArgumentInput) : Prop :=
  (∃ i : Nat, definition.arguments[i]? = some argument ∧ positional[i]? = some input) ∨
    (argument.name, input) ∈ named

/-- Calls that give inputs to declared arguments only, and to none of them twice. -/
structure IsAssignment : Prop where
  fits : positional.length ≤ definition.arguments.length
  declared : ∀ p ∈ named, ∃ a ∈ definition.arguments, a.name = p.1
  distinct : (named.map Prod.fst).Nodup
  apart : ∀ p ∈ named, ∀ a ∈ definition.arguments.take positional.length, a.name ≠ p.1

/-- Calls whose constants are admitted, whose parameters the operation declares, and which give an
    input to every required argument. -/
structure Admissible (s : Schema) (parameters : List String) : Prop where
  literals : ∀ a ∈ definition.arguments, ∀ l,
    Assigns definition positional named a (.literal l) → s.acceptsLiteral a.type l = true
  parameters : ∀ a ∈ definition.arguments, ∀ p,
    Assigns definition positional named a (.parameter p) → p ∈ parameters
  required : ∀ a ∈ definition.arguments, a.isRequired = true →
    ∃ input, Assigns definition positional named a input

/-- The entry of a declared argument: bound to what the call gives it, or left to its default. -/
structure Holds (argument : ArgumentDefinition) (entry : FieldArgument) : Prop where
  name : entry.name = argument.name
  type : entry.type = argument.type
  declaredDefault : entry.declaredDefault = argument.defaultValue
  value : (∃ input, Assigns definition positional named argument input ∧
      entry.value = boundValue input) ∨
    ((∀ input, ¬ Assigns definition positional named argument input) ∧ entry.value = .default)

/-- All assignments of a call, those by position first. -/
def assignments : Supplied :=
  (definition.arguments.map (·.name)).zip positional ++ named

end Calls

section Supplied

variable {definition : FieldDefinition} {positional : List ArgumentInput}
  {named : List (String × ArgumentInput)} {coordinate : String}

/-! ## Gathering the inputs -/

theorem argument?_isSome_iff {name : String} :
    (definition.argument? name).isSome = true ↔ ∃ a ∈ definition.arguments, a.name = name := by
  simp [FieldDefinition.argument?]

/-- Named inputs are taken if they are declared and repeat no name, and stand behind the others. -/
theorem supplyNamed_eq_ok {supplied supplied' : Supplied} (hs : supplied.keys.Nodup) :
    supplyNamed coordinate definition supplied named = .ok supplied' ↔
      (∀ p ∈ named, ∃ a ∈ definition.arguments, a.name = p.1) ∧
        (Entries.keys (supplied ++ named)).Nodup ∧ supplied' = supplied ++ named := by
  induction named generalizing supplied with
  | nil => simp [supplyNamed, hs, eq_comm]
  | cons p rest ih =>
    obtain ⟨name, input⟩ := p
    rw [supplyNamed, List.forall_mem_cons, ← argument?_isSome_iff]
    cases hdeclared : (definition.argument? name).isSome with
    | false => simp
    | true =>
      simp only [Bool.not_true, Bool.false_eq_true, if_false, true_and]
      cases hcontains : supplied.contains name with
      | true =>
        have hmem : name ∈ supplied.keys := Entries.mem_keys_iff.mpr hcontains
        have hrepeats : ¬ (Entries.keys (supplied ++ (name, input) :: rest)).Nodup := by
          intro hn
          rw [Entries.keys, List.map_append] at hn
          exact (List.nodup_append.mp hn).2.2 name hmem name List.mem_cons_self rfl
        simp [hrepeats]
      | false =>
        rw [if_neg (by simp), ih (Entries.nodup_keys_insert hs name input),
          Entries.insert_of_not_contains input hcontains, List.append_assoc,
          List.singleton_append]

theorem keys_zip (names : List String) (inputs : List ArgumentInput) :
    Entries.keys (names.zip inputs) = names.take inputs.length := by
  unfold Entries.keys
  induction names generalizing inputs with
  | nil => simp
  | cons name rest ih =>
    cases inputs with
    | nil => rfl
    | cons input inputs => simp [ih]

/-- A call whose names are declared repeats none of them exactly if it is an assignment. -/
theorem isAssignment_iff (hd : (definition.arguments.map (·.name)).Nodup) :
    IsAssignment definition positional named ↔
      positional.length ≤ definition.arguments.length ∧
        (∀ p ∈ named, ∃ a ∈ definition.arguments, a.name = p.1) ∧
        (assignments definition positional named).keys.Nodup := by
  have hkeys : (assignments definition positional named).keys =
      (definition.arguments.take positional.length).map (·.name) ++ named.map Prod.fst := by
    rw [List.map_take, ← keys_zip]
    exact List.map_append
  have htake : ((definition.arguments.take positional.length).map (·.name)).Nodup := by
    rw [List.map_take]
    exact hd.sublist (List.take_sublist _ _)
  rw [hkeys, List.nodup_append]
  constructor
  · rintro ⟨hfits, hdeclared, hdistinct, hapart⟩
    refine ⟨hfits, hdeclared, htake, hdistinct, ?_⟩
    simp only [List.forall_mem_map]
    exact fun a ha p hp => hapart p hp a ha
  · rintro ⟨hfits, hdeclared, -, hdistinct, hapart⟩
    simp only [List.forall_mem_map] at hapart
    exact ⟨hfits, hdeclared, hdistinct, fun p hp a ha => hapart a ha p hp⟩

/-- What is found for a declared argument is what the call gives it. -/
theorem get?_assignments (hd : (definition.arguments.map (·.name)).Nodup)
    (h : IsAssignment definition positional named) {a : ArgumentDefinition}
    (ha : a ∈ definition.arguments) {input : ArgumentInput} :
    (assignments definition positional named).get? a.name = some input ↔
      Assigns definition positional named a input := by
  rw [Entries.get?_eq_some_iff ((isAssignment_iff hd).mp h).2.2, assignments, Assigns,
    List.mem_append, List.mem_iff_getElem?]
  refine or_congr_left (exists_congr fun i => ?_)
  rw [List.getElem?_zip_eq_some, List.getElem?_map, Option.map_eq_some_iff]
  constructor
  · rintro ⟨⟨b, hb, hname⟩, hi⟩
    obtain rfl : b = a := List.inj_on_of_nodup_map hd (List.mem_of_getElem? hb) ha hname
    exact ⟨hb, hi⟩
  · rintro ⟨hb, hi⟩
    exact ⟨⟨a, hb, rfl⟩, hi⟩

/-! ## Binding -/

variable {s : Schema} {parameters : List String}

theorem suppliedByPosition_eq (hd : (definition.arguments.map (·.name)).Nodup) :
    suppliedByPosition definition positional =
      (definition.arguments.map (·.name)).zip positional := by
  refine Entries.ofPairs_of_nodup ?_
  rw [keys_zip]
  exact hd.sublist (List.take_sublist _ _)

theorem gathered_eq_ok (hd : (definition.arguments.map (·.name)).Nodup) {supplied : Supplied} :
    supplyNamed coordinate definition (suppliedByPosition definition positional) named =
        .ok supplied ↔
      (∀ p ∈ named, ∃ a ∈ definition.arguments, a.name = p.1) ∧
        (assignments definition positional named).keys.Nodup ∧
        supplied = assignments definition positional named := by
  rw [suppliedByPosition_eq hd]
  refine supplyNamed_eq_ok ?_
  rw [keys_zip]
  exact hd.sublist (List.take_sublist _ _)

/-- From an assignment every argument is bound for itself. -/
theorem bindArguments_eq (hd : (definition.arguments.map (·.name)).Nodup)
    (h : IsAssignment definition positional named) :
    bindArguments s parameters coordinate definition positional named =
      bindEach s parameters coordinate (assignments definition positional named)
        definition.arguments := by
  obtain ⟨hfits, hdeclared, hkeys⟩ := (isAssignment_iff hd).mp h
  have hgathered : supplyNamed coordinate definition (suppliedByPosition definition positional)
      named = .ok (assignments definition positional named) :=
    (gathered_eq_ok hd).mpr ⟨hdeclared, hkeys, rfl⟩
  rw [bindArguments, if_neg (Nat.not_lt.mpr hfits)]
  dsimp only
  rw [hgathered]
  rfl

/-- Whatever is bound is an assignment. -/
theorem isAssignment_of_bindArguments (hd : (definition.arguments.map (·.name)).Nodup)
    {bound : List FieldArgument}
    (h : bindArguments s parameters coordinate definition positional named = .ok bound) :
    IsAssignment definition positional named := by
  unfold bindArguments at h
  split at h
  · simp [bind_eq_ok] at h
  · rename_i hfits
    simp only [bind_eq_ok] at h
    obtain ⟨supplied, hgathered, -⟩ := h
    obtain ⟨hdeclared, hkeys, -⟩ := (gathered_eq_ok hd).mp hgathered
    exact (isAssignment_iff hd).mpr ⟨Nat.not_lt.mp hfits, hdeclared, hkeys⟩

/-- An argument is bound to what is supplied for it. -/
theorem bindArgument_eq_ok {supplied : Supplied} {a : ArgumentDefinition} {b : FieldArgument}
    (h : bindArgument s parameters coordinate supplied a = .ok b) :
    b = ⟨a.name, a.type, ((supplied.get? a.name).map boundValue).getD .default,
      a.defaultValue⟩ := by
  unfold bindArgument at h
  split at h <;> rename_i hget <;> rw [hget] <;> split at h <;> cases h <;> rfl

theorem exists_bindArgument_iff {supplied : Supplied} {a : ArgumentDefinition} :
    (∃ b, bindArgument s parameters coordinate supplied a = .ok b) ↔
      (∀ l, supplied.get? a.name = some (.literal l) → s.acceptsLiteral a.type l = true) ∧
        (∀ p, supplied.get? a.name = some (.parameter p) → p ∈ parameters) ∧
        (a.isRequired = true → ∃ input, supplied.get? a.name = some input) := by
  unfold bindArgument
  dsimp only
  cases hget : supplied.get? a.name with
  | none => cases hrequired : a.isRequired <;> simp
  | some input =>
    cases input with
    | literal l => cases haccepts : s.acceptsLiteral a.type l <;> simp [haccepts]
    | parameter p => by_cases hmem : p ∈ parameters <;> simp [hmem]

theorem exists_bindEach_iff {supplied : Supplied} {arguments : List ArgumentDefinition} :
    (∃ bound, bindEach s parameters coordinate supplied arguments = .ok bound) ↔
      ∀ a ∈ arguments, ∃ b, bindArgument s parameters coordinate supplied a = .ok b := by
  simp only [bindEach_eq_ok]
  induction arguments with
  | nil => simp
  | cons a rest ih =>
    rw [List.forall_mem_cons, ← ih]
    simp only [List.forall₂_cons_left_iff]
    constructor
    · rintro ⟨_, b, others, hb, hothers, rfl⟩
      exact ⟨⟨b, hb⟩, others, hothers⟩
    · rintro ⟨⟨b, hb⟩, others, hothers⟩
      exact ⟨_, b, others, hb, hothers, rfl⟩

/-- Only what is supplied for the arguments themselves matters. -/
theorem bindEach_congr {supplied supplied' : Supplied} {arguments : List ArgumentDefinition}
    (h : ∀ a ∈ arguments, supplied.get? a.name = supplied'.get? a.name) :
    bindEach s parameters coordinate supplied arguments =
      bindEach s parameters coordinate supplied' arguments := by
  induction arguments with
  | nil => rfl
  | cons a rest ih =>
    rw [List.forall_mem_cons] at h
    have hfirst : bindArgument s parameters coordinate supplied a =
        bindArgument s parameters coordinate supplied' a := by
      unfold bindArgument
      rw [h.1]
    rw [bindEach, bindEach, hfirst, ih h.2]

/-! ## Assignments -/

theorem exists_bindArguments_iff (hd : (definition.arguments.map (·.name)).Nodup) :
    (∃ bound, bindArguments s parameters coordinate definition positional named = .ok bound) ↔
      IsAssignment definition positional named ∧
        Admissible definition positional named s parameters := by
  by_cases h : IsAssignment definition positional named
  · rw [bindArguments_eq hd h, exists_bindEach_iff]
    simp only [exists_bindArgument_iff, h, true_and]
    constructor
    · intro hall
      refine ⟨fun a ha l hl => ?_, fun a ha p hp => ?_, fun a ha hr => ?_⟩
      · exact (hall a ha).1 l ((get?_assignments hd h ha).mpr hl)
      · exact (hall a ha).2.1 p ((get?_assignments hd h ha).mpr hp)
      · obtain ⟨input, hget⟩ := (hall a ha).2.2 hr
        exact ⟨input, (get?_assignments hd h ha).mp hget⟩
    · rintro ⟨hliterals, hparameters, hrequired⟩ a ha
      refine ⟨fun l hl => ?_, fun p hp => ?_, fun hr => ?_⟩
      · exact hliterals a ha l ((get?_assignments hd h ha).mp hl)
      · exact hparameters a ha p ((get?_assignments hd h ha).mp hp)
      · obtain ⟨input, hgiven⟩ := hrequired a ha hr
        exact ⟨input, (get?_assignments hd h ha).mpr hgiven⟩
  · simp only [h, false_and, iff_false, not_exists]
    exact fun bound hbound => h (isAssignment_of_bindArguments hd hbound)

/-- Every declared argument has an entry, in order, that holds what the call gives it. -/
theorem holds_of_bindArguments (hd : (definition.arguments.map (·.name)).Nodup)
    {bound : List FieldArgument}
    (h : bindArguments s parameters coordinate definition positional named = .ok bound) :
    List.Forall₂ (Holds definition positional named) definition.arguments bound := by
  have hassigns := isAssignment_of_bindArguments hd h
  rw [bindArguments_eq hd hassigns, bindEach_eq_ok, List.forall₂_iff_zip] at h
  rw [List.forall₂_iff_zip]
  refine ⟨h.1, fun {a b} hab => ?_⟩
  have ha := (List.of_mem_zip hab).1
  have hb := bindArgument_eq_ok (h.2 hab)
  rw [hb]
  refine ⟨rfl, rfl, rfl, ?_⟩
  cases hget : (assignments definition positional named).get? a.name with
  | some input => exact Or.inl ⟨input, (get?_assignments hd hassigns ha).mp hget, rfl⟩
  | none =>
    refine Or.inr ⟨fun input hgiven => ?_, rfl⟩
    rw [(get?_assignments hd hassigns ha).mpr hgiven] at hget
    cases hget

/-- Two calls that give every argument the same are bound alike. -/
theorem bindArguments_congr (hd : (definition.arguments.map (·.name)).Nodup)
    {positional' : List ArgumentInput} {named' : List (String × ArgumentInput)}
    (h : IsAssignment definition positional named)
    (h' : IsAssignment definition positional' named')
    (hsame : ∀ a ∈ definition.arguments, ∀ input,
      Assigns definition positional named a input ↔
        Assigns definition positional' named' a input) :
    bindArguments s parameters coordinate definition positional named =
      bindArguments s parameters coordinate definition positional' named' := by
  rw [bindArguments_eq hd h, bindArguments_eq hd h']
  refine bindEach_congr fun a ha => Option.ext fun input => ?_
  rw [get?_assignments hd h ha, get?_assignments hd h' ha, hsame a ha input]

end Supplied

/-- A call is bound exactly if it is an assignment of admissible inputs.  Then every declared
    argument has an entry, in order, that holds what it is assigned; and two assignments that give
    every argument the same are bound alike, however they are split into inputs by position and by
    name and in whatever order the named ones stand. -/
theorem bindArguments_assignment {definition : FieldDefinition}
    (hd : (definition.arguments.map (·.name)).Nodup) (s : Schema) (parameters : List String)
    (coordinate : String) (positional : List ArgumentInput)
    (named : List (String × ArgumentInput)) :
    ((∃ bound, bindArguments s parameters coordinate definition positional named = .ok bound) ↔
      IsAssignment definition positional named ∧
        Admissible definition positional named s parameters) ∧
    (∀ bound, bindArguments s parameters coordinate definition positional named = .ok bound →
      List.Forall₂ (Holds definition positional named) definition.arguments bound) ∧
    ∀ positional' named', IsAssignment definition positional named →
      IsAssignment definition positional' named' →
      (∀ a ∈ definition.arguments, ∀ input, Assigns definition positional named a input ↔
        Assigns definition positional' named' a input) →
      bindArguments s parameters coordinate definition positional named =
        bindArguments s parameters coordinate definition positional' named' :=
  ⟨exists_bindArguments_iff hd, fun _ => holds_of_bindArguments hd,
    fun _ _ => bindArguments_congr hd⟩

/-! ## A call in two ways -/

/-- A search with a required text, a page size and an episode. -/
def searchField : FieldDefinition :=
  ⟨"search", .list (.named "Hero"), [⟨"text", .nonNull .string, none⟩,
    ⟨"first", .int, some (.int 10)⟩, ⟨"episode", .named "Episode", none⟩]⟩

def droidText : ArgumentInput := .literal (.string "droid")

def givenEpisode : ArgumentInput := .parameter "episode"

/-- The search is given its text by its place and its episode by name, or both by name and in the
    other order: it is bound, and to the same. -/
theorem bindArguments_assignment_search :
    (searchField.arguments.map (·.name)).Nodup ∧
      (∃ bound, bindArguments default ["episode"] "Query.search" searchField [droidText]
          [("episode", givenEpisode)] = .ok bound ∧
        List.Forall₂ (Holds searchField [droidText] [("episode", givenEpisode)])
          searchField.arguments bound) ∧
      bindArguments default ["episode"] "Query.search" searchField [droidText]
          [("episode", givenEpisode)] =
        bindArguments default ["episode"] "Query.search" searchField []
          [("episode", givenEpisode), ("text", droidText)] := by
  have hd : (searchField.arguments.map (·.name)).Nodup := by decide
  have hplaced : IsAssignment searchField [droidText] [("episode", givenEpisode)] :=
    ⟨by decide, by simp [searchField], by decide, by simp [searchField]⟩
  have hnamed : IsAssignment searchField [] [("episode", givenEpisode), ("text", droidText)] :=
    ⟨by decide, by simp [searchField], by decide, by simp⟩
  have hadmissible : Admissible searchField [droidText] [("episode", givenEpisode)] default
      ["episode"] := by
    refine ⟨fun a ha l hl => ?_, fun a ha p hp => ?_, fun a ha hr => ?_⟩
    · rw [← get?_assignments hd hplaced ha] at hl
      simp only [searchField, List.mem_cons, List.not_mem_nil, or_false] at ha
      rcases ha with rfl | rfl | rfl <;>
        simp [assignments, searchField, Entries.get?_cons, droidText, givenEpisode] at hl
      rw [← hl]
      simp [Schema.acceptsLiteral]
    · rw [← get?_assignments hd hplaced ha] at hp
      simp only [searchField, List.mem_cons, List.not_mem_nil, or_false] at ha
      rcases ha with rfl | rfl | rfl <;>
        simp [assignments, searchField, Entries.get?_cons, droidText, givenEpisode] at hp
      simp [← hp]
    · simp only [searchField, List.mem_cons, List.not_mem_nil, or_false] at ha
      rcases ha with rfl | rfl | rfl
      · exact ⟨droidText, Or.inl ⟨0, rfl, rfl⟩⟩
      · cases hr
      · cases hr
  have hsame : ∀ a ∈ searchField.arguments, ∀ input,
      Assigns searchField [droidText] [("episode", givenEpisode)] a input ↔
        Assigns searchField [] [("episode", givenEpisode), ("text", droidText)] a input := by
    intro a ha input
    rw [← get?_assignments hd hplaced ha, ← get?_assignments hd hnamed ha]
    simp only [searchField, List.mem_cons, List.not_mem_nil, or_false] at ha
    rcases ha with rfl | rfl | rfl <;> simp [assignments, searchField, Entries.get?_cons]
  obtain ⟨hok, hholds, hequal⟩ := bindArguments_assignment hd default ["episode"]
    "Query.search" [droidText] [("episode", givenEpisode)]
  obtain ⟨bound, hbound⟩ := hok.mpr ⟨hplaced, hadmissible⟩
  exact ⟨hd, ⟨bound, hbound, hholds bound hbound⟩, hequal _ _ hplaced hnamed hsame⟩

end QueryShapes.Analysis
