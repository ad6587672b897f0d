/-
  Compilation never reports a defect of its own.

  Two errors of the synthesis tell that an earlier stage has left something open:
  an argument without a value, or a reusable fragment that was not extracted.
  Neither is ever returned.  Analysis and extraction throw other errors only, and
  what extraction and lifting make of an analyzed tree can always be written
  (`compile_noDefect`).
-/
import QueryShapes.Proofs.Compilation
import QueryShapes.Proofs.Analysis.Errors
import QueryShapes.Proofs.Analysis.Lists
import QueryShapes.Proofs.Document.Resolution

namespace QueryShapes

open Selection Fragments Extraction Lifting

/-- The errors that tell of a defect of an earlier stage and not of the shape. -/
def CompileError.IsDefect : CompileError → Prop
  | .unresolvedArgument _ _ | .unresolvedFragment _ => True
  | _ => False

/-- A stage that reports no defect. -/
abbrev NoDefect {α : Type} (x : Except CompileError α) : Prop := Avoids CompileError.IsDefect x

namespace Analysis

/-- A check that finds fault with members only reports no defect. -/
theorem noDefect_of_checks {α : Type} {x : Except CompileError α} (h : ChecksMembers x) :
    NoDefect x := by
  refine h.mono fun e he => ?_
  cases e <;> first | exact he | exact trivial

/-! ## Members -/

namespace Resolver

variable (r : Resolver) (parent : String)

theorem checkDepth_noDefect (depth : Nat) : NoDefect (r.checkDepth depth) := by
  unfold checkDepth
  split
  · exact .error not_false
  · exact .ok _

theorem resolveMembers_cons_noDefect {m : Member} {rest : List Member} {depth : Nat}
    (hm : NoDefect (r.resolveMember parent depth m))
    (hr : ∀ taken, NoDefect (r.resolveMembers parent depth taken rest)) (taken : List String) :
    NoDefect (r.resolveMembers parent depth taken (m :: rest)) := by
  rw [resolveMembers]
  refine Avoids.bind hm fun s _ => ?_
  refine Avoids.bind (noDefect_of_checks (takeKey_checks parent taken s)) fun _ _ => ?_
  exact Avoids.bind (hr _) fun _ _ => .ok _

/-- Resolution reports what is wrong with the members, which is no defect. -/
theorem resolveMembers_noDefect (members : List Member) (depth : Nat) (taken : List String) :
    NoDefect (r.resolveMembers parent depth taken members) := by
  induction members using Member.listInduction generalizing parent depth taken with
  | nil =>
    rw [resolveMembers_nil]
    exact .ok _
  | leaf request rest ihr =>
    refine r.resolveMembers_cons_noDefect parent ?_ (ihr parent depth) taken
    rw [resolveMember]
    exact Avoids.bind (noDefect_of_checks (r.field_checks parent _ _ _)) fun _ _ => .ok _
  | nested request ms rest ihs ihr =>
    refine r.resolveMembers_cons_noDefect parent ?_ (ihr parent depth) taken
    rw [resolveMember]
    refine Avoids.bind (noDefect_of_checks (r.field_checks parent _ _ _)) fun f _ => ?_
    refine Avoids.bind (r.checkDepth_noDefect _) fun _ _ => ?_
    exact Avoids.bind (ihs _ _ _) fun _ _ => .ok _
  | reusing request fragment ms rest ihs ihr =>
    refine r.resolveMembers_cons_noDefect parent ?_ (ihr parent depth) taken
    rw [resolveMember]
    refine Avoids.bind (noDefect_of_checks (r.field_checks parent _ _ _)) fun f _ => ?_
    refine Avoids.bind (noDefect_of_checks (r.checkFragment_checks _ _ _)) fun _ _ => ?_
    refine Avoids.bind (r.checkDepth_noDefect _) fun _ _ => ?_
    exact Avoids.bind (ihs _ _ _) fun _ _ => .ok _
  | spread fragment ms rest ihs ihr =>
    refine r.resolveMembers_cons_noDefect parent ?_ (ihr parent depth) taken
    rw [resolveMember]
    refine Avoids.bind (noDefect_of_checks (r.checkFragment_checks _ _ _)) fun _ _ => ?_
    refine Avoids.bind (r.checkDepth_noDefect _) fun _ _ => ?_
    exact Avoids.bind (ihs _ _ _) fun _ _ => .ok _
  | narrowed condition ms rest ihs ihr =>
    refine r.resolveMembers_cons_noDefect parent ?_ (ihr parent depth) taken
    rw [resolveMember]
    refine Avoids.bind (noDefect_of_checks (r.checkCondition_checks _ _ _)) fun _ _ => ?_
    refine Avoids.bind (r.checkDepth_noDefect _) fun _ _ => ?_
    exact Avoids.bind (ihs _ _ _) fun _ _ => .ok _

end Resolver

/-! ## Whole operations -/

/-- Analysis reports no defect. -/
theorem analyze_noDefect (schema : Schema) (shape : OperationShape) (limit : Nat) :
    NoDefect (analyze schema shape limit) := by
  rw [analyze_eq]
  refine Avoids.bind (noDefect_of_checks (rootOf_checks schema shape)) fun root _ => ?_
  refine Avoids.bind (Resolver.resolveMembers_noDefect _ _ _ _ _) fun members _ => ?_
  exact noDefect_of_checks (merged_checks shape root members)

end Analysis

namespace Extraction

theorem nameGroups_noDefect (lifted : Lifted) (groups : List Group) :
    NoDefect (nameGroups lifted groups) := by
  induction groups generalizing lifted with
  | nil => exact .ok _
  | cons g rest ih =>
    rw [nameGroups]
    split
    · exact ih _
    · split
      · exact .error not_false
      · exact ih _

theorem extract_noDefect (set : SelectionSet) : NoDefect (extract set) := by
  unfold extract
  exact Avoids.bind (nameGroups_noDefect _ _) fun _ _ => .ok _

end Extraction

/-! ## Nothing is left open -/

section Stages

variable {schema : Schema} {shape : OperationShape} {limit : Nat} {set set' : SelectionSet}
  {lifted : Lifted} {fragments fragments' : List FragmentDefinition} {declared : Declarations}

/-- Nothing is open in a list if its arguments are resolved and nothing is open in what it becomes
    when the values of arguments are changed. -/
theorem resolved_of_mapValues {g : ArgumentValue → ArgumentValue} {defined : List String}
    {selections : List Selection} (ha : ∀ a ∈ allArguments selections, a.Resolved)
    (hm : allMarkers (mapValues g selections) = [])
    (hs : ∀ x ∈ allSpreads (mapValues g selections), x.1 ∈ defined) :
    Selection.Resolved defined selections := by
  refine ⟨ha, allMarkers_mapValues_eq_nil.mp hm, ?_⟩
  rwa [allSpreads_mapValues] at hs

/-- Every argument of a compiled operation has a value that a document can hold: its parameters
    became variables, and analysis left none unbound. -/
theorem resolved_argument_of_lift (ha : Analysis.analyze schema shape limit = .ok set)
    (he : Extracted set lifted fragments)
    (hl : lift { set with selections := replaced lifted set.rootType set.selections } fragments =
      (set', fragments', declared)) {a : FieldArgument}
    (hmem : a ∈ documentArguments set'.selections fragments') : a.Resolved := by
  obtain ⟨hlifts, -, -, -⟩ := lift_extracted ha he hl
  have hmem' := hmem
  rw [documentArguments_eq] at hmem'
  obtain ⟨f, hf, hfa⟩ := List.mem_flatMap.mp hmem'
  -- with its parameter written back it is an argument of the analyzed tree
  obtain ⟨request, -, hbound⟩ := (Analysis.analyze_faithful ha).arguments _
    (mem_allFields_of_lift ha he hl hf) _ (List.mem_map_of_mem hfa)
  unfold FieldArgument.Resolved
  cases hv : a.value with
  | literal l => exact Or.inr (Or.inl ⟨l, rfl⟩)
  | documentVariable v => exact Or.inr (Or.inr ⟨v, rfl⟩)
  | default => exact Or.inl rfl
  | parameter p =>
    have hnone : (a.type, p) ∈ parameterUses (documentArguments set'.selections fragments') :=
      mem_parameterUses_iff.mpr ⟨a, hmem, rfl, hv⟩
    rw [hlifts.noParameters] at hnone
    cases hnone
  | unbound =>
    have hunbound : (a.mapValue (restoreValue declared)).value = .unbound := by
      simp [FieldArgument.mapValue, hv, restoreValue]
    rcases hbound with h | ⟨p, -, h⟩ | ⟨l, -, h, -⟩
    · rw [hunbound] at h
      cases h
    · rw [hunbound] at h
      cases h
    · rw [hunbound] at h
      cases h

/-- Nothing is open in what extraction and lifting make of an analyzed operation. -/
theorem resolved_of_lift (ha : Analysis.analyze schema shape limit = .ok set)
    (he : Extracted set lifted fragments)
    (hl : lift { set with selections := replaced lifted set.rootType set.selections } fragments =
      (set', fragments', declared)) :
    Selection.Resolved (fragments'.map (·.name)) set'.selections ∧
      ∀ d ∈ fragments', Selection.Resolved (fragments'.map (·.name)) d.selections := by
  have hargument := fun a => resolved_argument_of_lift ha he hl (a := a)
  obtain ⟨-, hsel, hdef, -⟩ := lift_extracted ha he hl
  have hnames : fragments.map (·.name) = fragments'.map (·.name) := by
    rw [← hdef, List.map_map]
    rfl
  have hdefined : ∀ {selections : List Selection}, Resolves fragments selections →
      ∀ x ∈ allSpreads selections, x.1 ∈ fragments'.map (·.name) := by
    intro selections hr x hx
    obtain ⟨d, hd⟩ := Option.isSome_iff_exists.mp (hr x hx)
    rw [← hnames]
    exact List.mem_map.mpr ⟨d, mem_of_find? hd, name_of_find? hd⟩
  constructor
  · refine resolved_of_mapValues (g := restoreValue declared)
      (fun a h => hargument a (List.mem_append_left _ h)) ?_ ?_
    · rw [hsel, allMarkers_replaced]
    · rw [hsel]
      exact hdefined he.resolves
  · intro d hd
    have hd' : d.mapValues (restoreValue declared) ∈ fragments := hdef ▸ List.mem_map_of_mem hd
    refine resolved_of_mapValues (g := restoreValue declared)
      (fun a h => hargument a (List.mem_append_right _ (List.mem_flatMap.mpr ⟨d, hd, h⟩))) ?_ ?_
    · exact (he.lifts _ hd').noMarkers
    · exact hdefined (he.bodies _ hd')

end Stages

/-- Compilation never reports that a stage has left something open. -/
theorem compile_noDefect (schema : Schema) (settings : Settings) (shape : OperationShape) :
    NoDefect (compile schema settings shape) := by
  unfold compile
  refine Avoids.bind (Analysis.analyze_noDefect _ _ _) fun set ha => ?_
  refine Avoids.bind (extract_noDefect set) fun extraction hx => ?_
  obtain ⟨extracted, fragments⟩ := extraction
  obtain ⟨lifted, rfl, he⟩ := extract_eq_ok hx (Analysis.analyze_faithful ha).noSpreads
  dsimp only
  generalize hl : lift { set with selections := replaced lifted set.rootType set.selections }
    fragments = lifting
  obtain ⟨set', fragments', declared⟩ := lifting
  obtain ⟨hs, hf⟩ := resolved_of_lift ha he hl
  rw [Document.synthesize_of_resolved hs hf]
  exact .ok _

end QueryShapes
