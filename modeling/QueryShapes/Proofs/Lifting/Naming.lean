/-
  How lifting names variables.

  The arguments of an operation are read in order, each with the response path of
  its field (`documentPlaces`); inside a fragment the path begins with the
  fragment's name.  `Renames` is what lifting does along this reading: an argument
  bound to a parameter becomes a variable of its own, called after its path or,
  where an earlier variable has this name, after the path with the smallest free
  number behind it (`Chosen`); every other argument is kept.
-/
import Mathlib.Data.List.Nodup
import QueryShapes.Lifting
import QueryShapes.Proofs.Fragments.Expansion

namespace QueryShapes.Lifting

open Selection

/-! ## Fresh names -/

theorem numbered_injective (base : String) : Function.Injective (numbered base) := by
  intro m n h
  unfold numbered at h
  have h := congrArg String.toList ((String.append_right_inj _).mp h)
  rw [Nat.toList_repr, Nat.toList_repr] at h
  have h := congrArg (Nat.ofDigitChars 10 · 0) h
  rwa [Nat.ofDigitChars_toDigits (by decide) (by decide),
    Nat.ofDigitChars_toDigits (by decide) (by decide)] at h

/-- The name that is chosen for a base next to the taken ones: the base if it is free, and the base
    with the smallest number from two on that makes it free if it is taken. -/
inductive Chosen (taken : List String) (base : String) : String → Prop
  | free (h : base ∉ taken) : Chosen taken base base
  | numbered {n : Nat} (h : base ∈ taken) (hn : 2 ≤ n) (hfree : numbered base n ∉ taken)
      (hleast : ∀ k, 2 ≤ k → k < n → numbered base k ∈ taken) :
      Chosen taken base (numbered base n)

theorem Chosen.not_mem {taken : List String} {base name : String} (h : Chosen taken base name) :
    name ∉ taken := by
  cases h with
  | free h => exact h
  | numbered _ _ hfree _ => exact hfree

/-- One of more numbers than there are taken names is free. -/
theorem exists_numbered_not_mem (taken : List String) (base : String) :
    ∃ n < taken.length + 1, numbered base (n + 2) ∉ taken := by
  by_contra hnone
  push Not at hnone
  have hsub : (List.range (taken.length + 1)).map (fun n => numbered base (n + 2)) ⊆ taken := by
    intro name hname
    obtain ⟨n, hn, rfl⟩ := List.mem_map.mp hname
    exact hnone n (List.mem_range.mp hn)
  have hnodup : ((List.range (taken.length + 1)).map fun n => numbered base (n + 2)).Nodup := by
    refine List.nodup_range.map fun m n h => ?_
    have := numbered_injective base h
    omega
  have hle := hnodup.length_le_of_subset hsub
  rw [List.length_map, List.length_range] at hle
  omega

theorem chosen_freshName (taken : List String) (base : String) :
    Chosen taken base (freshName taken base) := by
  unfold freshName
  split
  · rename_i htaken
    dsimp only
    rw [List.find?_map]
    obtain ⟨m, hm, hfree⟩ := exists_numbered_not_mem taken base
    cases hfind : (List.range (taken.length + 1)).find?
        ((!taken.contains ·) ∘ fun n => numbered base (n + 2)) with
    | none =>
      have hnone := List.find?_eq_none.mp hfind m (List.mem_range.mpr hm)
      simp [hfree] at hnone
    | some n =>
      obtain ⟨hn, -, hleast⟩ := List.find?_range_eq_some.mp hfind
      refine .numbered (List.contains_iff_mem.mp htaken) (Nat.le_add_left 2 n)
        (by simpa using hn) ?_
      intro k hk hkn
      -- the numbers are counted from two on
      obtain ⟨i, rfl⟩ : ∃ i, k = i + 2 := ⟨k - 2, by omega⟩
      simpa using hleast i (by omega)
  · rename_i hfree
    exact .free (by simpa using hfree)

/-! ## Arguments and their places -/

/-- An argument with the response path of its field. -/
structure PlacedArgument where
  path : List String
  argument : FieldArgument

/-- The arguments of a list below a response path, in reading order. -/
def placedArguments (path : List String) : List Selection → List PlacedArgument
  | [] => []
  | .field f subs :: rest =>
    f.arguments.map (.mk (path ++ [f.responseKey])) ++
      (placedArguments (path ++ [f.responseKey]) subs ++ placedArguments path rest)
  | .spread _ _ :: rest => placedArguments path rest
  | .inline _ subs :: rest => placedArguments path subs ++ placedArguments path rest
  | .marker _ _ subs :: rest => placedArguments path subs ++ placedArguments path rest

/-- The arguments of fragments, the paths beginning with the fragments' names. -/
def fragmentPlaces (fragments : List FragmentDefinition) : List PlacedArgument :=
  fragments.flatMap fun d => placedArguments [d.name] d.selections

/-- The arguments of an operation and then those of its fragments. -/
def documentPlaces (selections : List Selection) (fragments : List FragmentDefinition) :
    List PlacedArgument :=
  placedArguments [] selections ++ fragmentPlaces fragments

theorem map_argument_placedArguments (path : List String) (selections : List Selection) :
    (placedArguments path selections).map (·.argument) = allArguments selections := by
  induction selections using listInduction generalizing path with
  | nil => simp [placedArguments, allArguments, allFields]
  | field f subs rest ihs ihr =>
    rw [placedArguments, List.map_append, List.map_append, ihs, ihr, allArguments_field,
      List.map_map]
    exact congrArg (· ++ _) (List.map_id _)
  | spread name condition rest ihr => rw [placedArguments, ihr, allArguments_spread]
  | inline condition subs rest ihs ihr =>
    rw [placedArguments, List.map_append, ihs, ihr, allArguments_inline]
  | marker name condition subs rest ihs ihr =>
    rw [placedArguments, List.map_append, ihs, ihr, allArguments_marker]

theorem map_argument_fragmentPlaces (fragments : List FragmentDefinition) :
    (fragmentPlaces fragments).map (·.argument) =
      fragments.flatMap (allArguments ·.selections) := by
  rw [fragmentPlaces, List.map_flatMap]
  simp only [map_argument_placedArguments]

/-! ## Renaming -/

/-- Arguments are renamed in order: one that is bound to a parameter is declared, under a name that
    is chosen for its path next to those declared before, and becomes this variable; every other
    argument stays as it is. -/
inductive Renames : Declarations → Declarations → List PlacedArgument → List PlacedArgument → Prop
  | nil (declared : Declarations) : Renames declared declared [] []
  | kept {before after : Declarations} {a : PlacedArgument} {rest rest' : List PlacedArgument}
      (h : ∀ parameter, a.argument.value ≠ .parameter parameter)
      (hrest : Renames before after rest rest') : Renames before after (a :: rest) (a :: rest')
  | declared {before after : Declarations} {a : PlacedArgument} {rest rest' : List PlacedArgument}
      {parameter name : String} (h : a.argument.value = .parameter parameter)
      (hname : Chosen (before.map (·.name)) (baseName a.path a.argument.name) name)
      (hrest : Renames (before ++ [⟨name, a.argument.type, parameter⟩]) after rest rest') :
      Renames before after (a :: rest)
        (⟨a.path, { a.argument with value := .documentVariable name }⟩ :: rest')

theorem Renames.append {before middle after : Declarations} {as bs as' bs' : List PlacedArgument}
    (h : Renames before middle as as') (h' : Renames middle after bs bs') :
    Renames before after (as ++ bs) (as' ++ bs') := by
  induction h with
  | nil _ => exact h'
  | kept hv _ ih => exact .kept hv (ih h')
  | declared hv hname _ ih => exact .declared hv hname (ih h')

theorem liftArguments_renames (path : List String) (declared : Declarations)
    (arguments : List FieldArgument) :
    Renames declared (liftArguments path declared arguments).2 (arguments.map (.mk path))
      ((liftArguments path declared arguments).1.map (.mk path)) := by
  induction arguments generalizing declared with
  | nil => exact .nil declared
  | cons a rest ih =>
    rw [liftArguments]
    split
    · exact .declared ‹_› (chosen_freshName _ _) (ih _)
    · rename_i hv
      exact .kept hv (ih _)

theorem liftSelections_renames (path : List String) (declared : Declarations)
    (selections : List Selection) :
    Renames declared (liftSelections path declared selections).2 (placedArguments path selections)
      (placedArguments path (liftSelections path declared selections).1) := by
  induction selections using listInduction generalizing path declared with
  | nil =>
    rw [liftSelections, placedArguments]
    exact .nil declared
  | field f subs rest ihs ihr =>
    rw [liftSelections, placedArguments, placedArguments]
    exact (liftArguments_renames _ _ _).append ((ihs _ _).append (ihr _ _))
  | spread name condition rest ihr =>
    rw [liftSelections, placedArguments, placedArguments]
    exact ihr _ _
  | inline condition subs rest ihs ihr =>
    rw [liftSelections, placedArguments, placedArguments]
    exact (ihs _ _).append (ihr _ _)
  | marker name condition subs rest ihs ihr =>
    rw [liftSelections, placedArguments, placedArguments]
    exact (ihs _ _).append (ihr _ _)

theorem liftFragments_renames (declared : Declarations) (fragments : List FragmentDefinition) :
    Renames declared (liftFragments declared fragments).2 (fragmentPlaces fragments)
      (fragmentPlaces (liftFragments declared fragments).1) := by
  induction fragments generalizing declared with
  | nil => exact .nil declared
  | cons d rest ih =>
    rw [liftFragments]
    exact (liftSelections_renames _ _ _).append (ih _)

end QueryShapes.Lifting
