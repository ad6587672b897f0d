/-
  Legal operations: everything that a document writes of them is called by a
  name of the language, their constants can be written, and their fields have
  the arguments that are declared for them, in the declared order.

  Analysis on a legal schema makes legal selections (`analyze_legal`).
  Extraction keeps them legal, for the names of its definitions are explicit
  ones or begin with the name of a type, and so does lifting, for variables are
  called by names joined with underscores.  So what is compiled is legal
  (`compile_legal`).
-/
import QueryShapes.Proofs.Analysis.Typing
import QueryShapes.Proofs.Compilation
import QueryShapes.Proofs.Executable.Constants

namespace QueryShapes

open Executable (Spellable Writable)
open Lifting (documentFields)

/-! ## Legal parts -/

/-- Names that a fragment definition may have. -/
def IsFragmentName (name : String) : Prop := Name.isValid name = true ∧ name ≠ "on"

structure FieldArgument.Legal (a : FieldArgument) : Prop where
  name : Name.isValid a.name = true
  type : a.type.Built
  literals : ∀ l, a.value = .literal l → Writable l
  names : ∀ v, a.value = .documentVariable v → Name.isValid v = true

/-- A field that has the arguments of its declaration, in the order of that; the meta field has
    none. -/
def Field.Declared (s : Schema) (f : Field) : Prop :=
  f.name = Name.typename ∧ f.arguments = [] ∨
    ∃ key d, s.field? f.parentType key = some d ∧ f.name = d.name ∧
      f.arguments.map (·.name) = d.arguments.map (·.name)

structure Field.Legal (s : Schema) (f : Field) : Prop where
  name : Name.isValid f.name = true
  aliases : ∀ a, f.aliasName = some a → Name.isValid a = true
  arguments : ∀ a ∈ f.arguments, a.Legal
  declared : f.Declared s

namespace Selection

/-- Selection lists of legal fields under legal conditions; only fields may be empty. -/
inductive Legal (s : Schema) : List Selection → Prop
  | nil : Legal s []
  | field {f : Field} {subs rest : List Selection} (hf : f.Legal s) (hs : Legal s subs)
      (hr : Legal s rest) : Legal s (.field f subs :: rest)
  | spread {name condition : String} {rest : List Selection} (hn : IsFragmentName name)
      (hr : Legal s rest) : Legal s (.spread name condition :: rest)
  | inline {condition : String} {subs rest : List Selection}
      (hc : Name.isValid condition = true) (hne : subs ≠ []) (hs : Legal s subs)
      (hr : Legal s rest) : Legal s (.inline condition subs :: rest)
  | marker {name : Option String} {condition : String} {subs rest : List Selection}
      (hn : ∀ n, name = some n → IsFragmentName n) (hc : Name.isValid condition = true)
      (hne : subs ≠ []) (hs : Legal s subs) (hr : Legal s rest) :
      Legal s (.marker name condition subs :: rest)

theorem Legal.append {s : Schema} {as bs : List Selection} (ha : Legal s as) (hb : Legal s bs) :
    Legal s (as ++ bs) := by
  induction ha with
  | nil => exact hb
  | field hf hs _ _ ihr => exact .field hf hs ihr
  | spread hn _ ihr => exact .spread hn ihr
  | inline hc hne hs _ _ ihr => exact .inline hc hne hs ihr
  | marker hn hc hne hs _ _ ihr => exact .marker hn hc hne hs ihr

/-- A marker of a legal tree is legal. -/
theorem Legal.of_mem_allMarkers {s : Schema} {selections : List Selection}
    (h : Legal s selections) {m : Marker} (hm : m ∈ allMarkers selections) :
    (∀ n, m.name = some n → IsFragmentName n) ∧ Name.isValid m.typeCondition = true ∧
      m.selections ≠ [] ∧ Legal s m.selections := by
  induction h with
  | nil => simp [allMarkers] at hm
  | field _ _ _ ihs ihr =>
    rw [allMarkers, List.mem_append] at hm
    exact hm.elim ihs ihr
  | spread _ _ ihr =>
    rw [allMarkers] at hm
    exact ihr hm
  | inline _ _ _ _ ihs ihr =>
    rw [allMarkers, List.mem_append] at hm
    exact hm.elim ihs ihr
  | marker hn hc hne hs _ ihs ihr =>
    rw [allMarkers, List.mem_cons, List.mem_append] at hm
    rcases hm with rfl | hm
    · exact ⟨hn, hc, hne, hs⟩
    · exact hm.elim ihs ihr

theorem Legal.hasBodies {s : Schema} {selections : List Selection} (h : Legal s selections) :
    HasBodies selections := by
  induction h with
  | nil => simp [HasBodies]
  | field _ _ _ ihs ihr =>
    rw [HasBodies]
    exact ⟨ihs, ihr⟩
  | spread _ _ ihr =>
    rw [HasBodies]
    exact ihr
  | inline _ hne _ _ ihs ihr =>
    rw [HasBodies]
    exact ⟨hne, ihs, ihr⟩
  | marker _ _ hne _ _ ihs ihr =>
    rw [HasBodies]
    exact ⟨hne, ihs, ihr⟩

/-- A field of a legal tree is legal. -/
theorem Legal.of_mem_allFields {s : Schema} {selections : List Selection}
    (h : Legal s selections) : ∀ f ∈ allFields selections, f.Legal s := by
  induction h with
  | nil => simp [allFields]
  | field hf _ _ ihs ihr =>
    rw [allFields, List.forall_mem_cons, List.forall_mem_append]
    exact ⟨hf, ihs, ihr⟩
  | spread _ _ ihr =>
    rw [allFields]
    exact ihr
  | inline _ _ _ _ ihs ihr =>
    rw [allFields, List.forall_mem_append]
    exact ⟨ihs, ihr⟩
  | marker _ _ _ _ _ ihs ihr =>
    rw [allFields, List.forall_mem_append]
    exact ⟨ihs, ihr⟩

end Selection

open Selection

structure FragmentDefinition.Legal (s : Schema) (d : FragmentDefinition) : Prop where
  name : IsFragmentName d.name
  condition : Name.isValid d.typeCondition = true
  nonempty : d.selections ≠ []
  selections : Selection.Legal s d.selections

structure VariableDeclaration.Legal (d : VariableDeclaration) : Prop where
  name : Name.isValid d.name = true
  type : d.type.Built

structure CompiledQuery.Legal (s : Schema) (query : CompiledQuery) : Prop where
  name : ∀ n, query.selectionSet.operationName = some n → Name.isValid n = true
  nonempty : query.selectionSet.selections ≠ []
  selections : Selection.Legal s query.selectionSet.selections
  fragments : ∀ d ∈ query.fragments, d.Legal s
  declarations : ∀ d ∈ query.declarations, d.Legal

/-- The fields of a legal operation and its fragments are legal. -/
theorem CompiledQuery.Legal.of_mem_documentFields {s : Schema} {query : CompiledQuery}
    (h : query.Legal s) :
    ∀ f ∈ documentFields query.selectionSet.selections query.fragments, f.Legal s := by
  rw [documentFields, List.forall_mem_append]
  refine ⟨h.selections.of_mem_allFields, fun f hf => ?_⟩
  obtain ⟨d, hd, hf⟩ := List.mem_flatMap.mp hf
  exact (h.fragments d hd).selections.of_mem_allFields f hf

/-! ## Analysis -/

/-- Calls whose constants are objects of distinct keys and can be told by their spelling. -/
def FieldRequest.Spellable (request : FieldRequest) : Prop :=
  ∀ l, .literal l ∈ request.inputs → l.DistinctKeys ∧ Executable.Spellable l

/-- The reusable fragments of a list of members at every depth. -/
def Member.fragments : List Member → List FragmentHead
  | [] => []
  | .leaf _ :: rest => fragments rest
  | .nested _ ms :: rest => fragments ms ++ fragments rest
  | .reusing _ fragment ms :: rest => fragment :: (fragments ms ++ fragments rest)
  | .spread fragment ms :: rest => fragment :: (fragments ms ++ fragments rest)
  | .narrowed _ ms :: rest => fragments ms ++ fragments rest

namespace Analysis

theorem legal_typename (s : Schema) (parent : String) {aliasName : Option String}
    (injected : Bool) (ha : ∀ a, aliasName = some a → Name.isValid a = true) :
    (Field.typename parent aliasName injected).Legal s := by
  have hname : Name.isValid Name.typename = true := by decide
  refine ⟨hname, ha, fun a ha => ?_, Or.inl ⟨rfl, rfl⟩⟩
  cases ha

/-- A list with the meta field behind it is legal like the list. -/
theorem legal_withTypename {s : Schema} {parent : String} {selections : List Selection}
    (h : Selection.Legal s selections) : Selection.Legal s (withTypename parent selections) := by
  unfold withTypename
  split
  · have hmeta := legal_typename s parent true fun a (ha : none = some a) => nomatch ha
    exact h.append (.field hmeta .nil .nil)
  · exact h

theorem withTypename_ne_nil (parent : String) {selections : List Selection}
    (hne : selections ≠ []) : withTypename parent selections ≠ [] := by
  unfold withTypename
  split
  · exact List.append_ne_nil_of_left_ne_nil hne _
  · exact hne

theorem exists_definition {s : Schema} {parameters : List String} {ds : List ArgumentDefinition}
    {as : List FieldArgument} (h : List.Forall₂ (ArgumentTyped s parameters) ds as)
    {a : FieldArgument} (ha : a ∈ as) : ∃ d ∈ ds, ArgumentTyped s parameters d a := by
  induction h with
  | nil => cases ha
  | cons hd _ ih =>
    rcases List.mem_cons.mp ha with rfl | ha
    · exact ⟨_, List.mem_cons_self, hd⟩
    · obtain ⟨d, hmem, htyped⟩ := ih ha
      exact ⟨d, List.mem_cons_of_mem _ hmem, htyped⟩

theorem names_eq_of_typed {s : Schema} {parameters : List String} {ds : List ArgumentDefinition}
    {as : List FieldArgument} (h : List.Forall₂ (ArgumentTyped s parameters) ds as) :
    as.map (·.name) = ds.map (·.name) := by
  induction h with
  | nil => rfl
  | cons hd _ ih => rw [List.map_cons, List.map_cons, hd.name, ih]

namespace Resolver

variable {r : Resolver} {parent : String} {depth : Nat} {taken : List String}

theorem legal_of_bound (hs : r.schema.Legal) {request : FieldRequest} (hl : request.Spellable)
    {d : ArgumentDefinition} (hd : d.Legal) {a : FieldArgument}
    (ht : ArgumentTyped r.schema r.parameters d a) (hb : Bound r request.inputs a) : a.Legal := by
  refine ⟨ht.name ▸ hd.name, ht.type ▸ hd.type, fun l hv => ?_, fun v hv => ?_⟩
  · rcases hb with hb | ⟨p, -, hb⟩ | ⟨l', hmem, hb, haccepts⟩
    · rw [hb] at hv
      cases hv
    · rw [hb] at hv
      cases hv
    · rw [hb] at hv
      cases hv
      obtain ⟨hkeys, hspelled⟩ := hl l hmem
      exact Executable.writable_of_wellFormed hspelled
        (Schema.wellFormed_of_acceptsLiteral hs.wellNamed hkeys haccepts)
  · rcases hb with hb | ⟨p, -, hb⟩ | ⟨l, -, hb, -⟩ <;>
    · rw [hb] at hv
      cases hv

theorem field_legal (hs : r.schema.Legal) {request : FieldRequest} (hl : request.Spellable)
    {hasSelection isEmpty : Bool} {f : Field}
    (h : r.field parent request hasSelection isEmpty = .ok f) : f.Legal r.schema := by
  have halias : ∀ a, request.aliasName = some a → Name.isValid a = true := fun a ha =>
    validAlias_of_field h ha
  have hbound := field_bound h
  rcases field_eq_ok h with ⟨-, hmeta⟩ | hdeclared
  · rw [metaField_eq_ok hmeta]
    exact legal_typename r.schema parent false halias
  · obtain ⟨d, arguments, hd, hargs, -, -, rfl⟩ := declaredField_eq_ok hdeclared
    have hlegal := hs.field hd
    have htyped := bindArguments_typed hargs
    refine ⟨hlegal.name, halias, fun a ha => ?_, Or.inr ⟨_, d, hd, rfl, names_eq_of_typed htyped⟩⟩
    obtain ⟨b, hb, hba⟩ := exists_definition htyped ha
    exact legal_of_bound hs hl (hlegal.arguments b hb) hba (hbound a ha)

theorem isFragmentName_of_checkFragment {fragment : FragmentHead} {isEmpty : Bool}
    (h : r.checkFragment parent fragment isEmpty = .ok ()) (hn : fragment.name ≠ some "on") :
    ∀ n, fragment.name = some n → IsFragmentName n := by
  intro n hname
  refine ⟨(checkFragment_eq_ok h).1 n hname, ?_⟩
  rintro rfl
  exact hn hname

theorem ne_nil_of_resolveMembers {members : List Member} {selections : List Selection}
    (h : r.resolveMembers parent depth taken members = .ok selections) (hne : members ≠ []) :
    selections ≠ [] := by
  cases members with
  | nil => exact absurd rfl hne
  | cons m rest =>
    obtain ⟨s, taken', others, -, -, -, rfl⟩ := resolveMembers_cons h
    exact List.cons_ne_nil _ _

theorem ne_nil_of_isEmpty {ms : List Member} (h : ms.isEmpty = false) : ms ≠ [] := by
  rintro rfl
  cases h

/-- Resolution on a legal schema makes legal selections. -/
theorem resolveMembers_legal (hs : r.schema.Legal) {members : List Member}
    (hl : ∀ request ∈ Member.requests members, request.Spellable)
    (hf : ∀ fragment ∈ Member.fragments members, fragment.name ≠ some "on")
    {selections : List Selection}
    (h : r.resolveMembers parent depth taken members = .ok selections) :
    Selection.Legal r.schema selections := by
  induction members using Member.listInduction generalizing parent depth taken selections with
  | nil =>
    rw [resolveMembers_nil] at h
    cases h
    exact .nil
  | leaf request rest ihr =>
    obtain ⟨s, taken', others, hx, -, ho, rfl⟩ := resolveMembers_cons h
    obtain ⟨f, hfield, rfl⟩ := resolveMember_leaf hx
    simp only [Member.requests, List.forall_mem_cons] at hl
    rw [Member.fragments] at hf
    exact .field (field_legal hs hl.1 hfield) .nil (ihr hl.2 hf ho)
  | nested request ms rest ihs ihr =>
    obtain ⟨s, taken', others, hx, -, ho, rfl⟩ := resolveMembers_cons h
    obtain ⟨f, subs, hfield, -, hsubs, rfl⟩ := resolveMember_nested hx
    simp only [Member.requests, List.forall_mem_cons, List.forall_mem_append] at hl
    simp only [Member.fragments, List.forall_mem_append] at hf
    exact .field (field_legal hs hl.1 hfield) (legal_withTypename (ihs hl.2.1 hf.1 hsubs))
      (ihr hl.2.2 hf.2 ho)
  | reusing request fragment ms rest ihs ihr =>
    obtain ⟨s, taken', others, hx, -, ho, rfl⟩ := resolveMembers_cons h
    obtain ⟨f, subs, hfield, hfragment, -, hsubs, rfl⟩ := resolveMember_reusing hx
    simp only [Member.requests, List.forall_mem_cons, List.forall_mem_append] at hl
    simp only [Member.fragments, List.forall_mem_cons, List.forall_mem_append] at hf
    obtain ⟨-, hcomposite, hempty, -⟩ := checkFragment_eq_ok hfragment
    have hne := ne_nil_of_resolveMembers hsubs (ne_nil_of_isEmpty hempty)
    have hcondition := hs.wellNamed.composite hcomposite
    have hmarker : Selection.Legal r.schema [.marker fragment.name fragment.onType
        (withTypename fragment.onType subs)] :=
      .marker (isFragmentName_of_checkFragment hfragment hf.1) hcondition
        (withTypename_ne_nil _ hne) (legal_withTypename (ihs hl.2.1 hf.2.1 hsubs)) .nil
    exact .field (field_legal hs hl.1 hfield) (legal_withTypename hmarker) (ihr hl.2.2 hf.2.2 ho)
  | spread fragment ms rest ihs ihr =>
    obtain ⟨s, taken', others, hx, -, ho, rfl⟩ := resolveMembers_cons h
    obtain ⟨subs, hfragment, -, hsubs, rfl⟩ := resolveMember_spread hx
    simp only [Member.requests, List.forall_mem_append] at hl
    simp only [Member.fragments, List.forall_mem_cons, List.forall_mem_append] at hf
    obtain ⟨-, hcomposite, hempty, -⟩ := checkFragment_eq_ok hfragment
    have hne := ne_nil_of_resolveMembers hsubs (ne_nil_of_isEmpty hempty)
    have hcondition := hs.wellNamed.composite hcomposite
    exact .marker (isFragmentName_of_checkFragment hfragment hf.1) hcondition
      (withTypename_ne_nil _ hne) (legal_withTypename (ihs hl.1 hf.2.1 hsubs)) (ihr hl.2 hf.2.2 ho)
  | narrowed condition ms rest ihs ihr =>
    obtain ⟨s, taken', others, hx, -, ho, rfl⟩ := resolveMembers_cons h
    obtain ⟨subs, hcondition, -, hsubs, rfl⟩ := resolveMember_narrowed hx
    simp only [Member.requests, List.forall_mem_append] at hl
    simp only [Member.fragments, List.forall_mem_append] at hf
    obtain ⟨hcomposite, hempty, -⟩ := checkCondition_eq_ok hcondition
    have hne := ne_nil_of_resolveMembers hsubs (ne_nil_of_isEmpty hempty)
    exact .inline (hs.wellNamed.composite hcomposite) (withTypename_ne_nil _ hne)
      (legal_withTypename (ihs hl.1 hf.1 hsubs)) (ihr hl.2 hf.2 ho)

end Resolver

/-- An operation that is analyzed on a legal schema has legal selections. -/
theorem analyze_legal {schema : Schema} (hs : schema.Legal) {shape : OperationShape}
    (hl : ∀ request ∈ Member.requests shape.members, request.Spellable)
    (hf : ∀ fragment ∈ Member.fragments shape.members, fragment.name ≠ some "on") {limit : Nat}
    {set : SelectionSet} (h : analyze schema shape limit = .ok set) :
    set.selections ≠ [] ∧ Selection.Legal schema set.selections := by
  obtain ⟨root, subs, -, -, hsubs, rfl, -⟩ := analyze_eq_ok h
  have hne := Resolver.ne_nil_of_resolveMembers hsubs (checks_of_analyze h).2
  have hlegal := Resolver.resolveMembers_legal hs hl hf hsubs
  exact ⟨withTypename_ne_nil _ hne, legal_withTypename hlegal⟩

end Analysis

/-! ## Extraction -/

namespace Extraction

variable {s : Schema}

/-- Groups of legal markers. -/
def Group.Legal (g : Group) : Prop :=
  (∀ n, g.key.name = some n → IsFragmentName n) ∧ Name.isValid g.typeCondition = true

theorem isContinue_hex (bytes : List UInt8) :
    ∀ c ∈ (Digest.hex bytes).toList, Name.isContinue c = true := by
  have hdigit : ∀ n < 16, Name.isContinue ("0123456789abcdef".toList.getD n '0') = true := by
    decide
  intro c hc
  rw [Digest.hex, String.toList_ofList, List.mem_flatMap] at hc
  obtain ⟨b, -, hc⟩ := hc
  have hb := b.toNat_lt
  simp only [Digest.hexByte, List.mem_cons, List.not_mem_nil, or_false] at hc
  rcases hc with rfl | rfl
  · exact hdigit _ (by omega)
  · exact hdigit _ (by omega)

/-- A name that begins with that of a type is not the word for a type condition. -/
theorem isFragmentName_derivedName {condition : String} (h : Name.isValid condition = true)
    (fingerprint : List UInt8) : IsFragmentName (derivedName condition fingerprint) := by
  unfold derivedName
  constructor
  · have hword : "Fragment_".toList.all Name.isContinue = true := by decide
    exact Name.isValid_append (Name.isValid_append h (List.all_eq_true.mp hword))
      (isContinue_hex _)
  · intro heq
    have hlength := congrArg String.length heq
    have hword : "Fragment_".length = 9 := by decide
    have hon : "on".length = 2 := by decide
    rw [String.length_append, String.length_append] at hlength
    omega

theorem Group.Legal.definitionName {g : Group} (h : g.Legal) : IsFragmentName g.definitionName := by
  unfold Group.definitionName
  cases hname : g.key.name with
  | none => exact isFragmentName_derivedName h.2 _
  | some n => exact h.1 n hname

/-- Replacing the markers of a legal list leaves it legal. -/
theorem legal_replaced {lifted : Lifted} (hl : ∀ p ∈ lifted, IsFragmentName p.2)
    (parent : String) {selections : List Selection} (h : Selection.Legal s selections) :
    Selection.Legal s (replaced lifted parent selections) := by
  induction h generalizing parent with
  | nil =>
    rw [replaced]
    exact .nil
  | field hf _ _ ihs ihr =>
    rw [replaced]
    exact .field hf (ihs _) (ihr _)
  | spread hn _ ihr =>
    rw [replaced]
    exact .spread hn (ihr _)
  | inline hc hne hs _ ihs ihr =>
    rw [replaced]
    exact .inline hc (replaced_ne_nil _ _ hs.hasBodies hne) (ihs _) (ihr _)
  | marker hn hc hne hs _ ihs ihr =>
    rw [replaced]
    split
    · rename_i hname
      exact .spread (hl _ (mem_of_lookup hname)) (ihr _)
    · split
      · exact (ihs _).append (ihr _)
      · exact .inline hc (replaced_ne_nil _ _ hs.hasBodies hne) (ihs _) (ihr _)

/-- The definitions that are extracted from a legal operation are legal, and so is what is left
    of its selections. -/
theorem extract_legal {set set' : SelectionSet} {fragments : List FragmentDefinition}
    (h : extract set = .ok (set', fragments)) (hs : allSpreads set.selections = [])
    (hne : set.selections ≠ []) (hl : Selection.Legal s set.selections) :
    set'.selections ≠ [] ∧ Selection.Legal s set'.selections ∧ ∀ d ∈ fragments, d.Legal s := by
  obtain ⟨lifted, hnames, rfl, he⟩ := extract_named h hs
  have hgroups : ∀ g ∈ countMarkers [] set.selections, g.Legal := by
    intro g hg
    obtain ⟨m, hm, hkey, htype⟩ := ofMarkers_countMarkers (by simp) (fun _ hm => hm) g hg
    obtain ⟨hname, hcondition, -⟩ := hl.of_mem_allMarkers hm
    rw [Group.Legal, hkey, htype]
    exact ⟨hname, hcondition⟩
  have hlifted : ∀ p ∈ lifted, IsFragmentName p.2 := by
    intro p hp
    rcases exists_group_of_mem_nameGroups hnames hp with hnone | ⟨g, hg, rfl⟩
    · cases hnone
    · exact (hgroups g hg).definitionName
  refine ⟨replaced_ne_nil _ _ hl.hasBodies hne, legal_replaced hlifted _ hl, fun d hd => ?_⟩
  obtain ⟨m, hm, hname, hcondition, hselections⟩ := he.lifts d hd
  obtain ⟨-, hvalid, hnonempty, hlegal⟩ := hl.of_mem_allMarkers hm
  refine ⟨hlifted _ (mem_of_lookup hname), hcondition ▸ hvalid, ?_, ?_⟩
  · rw [hselections]
    exact replaced_ne_nil _ _ hlegal.hasBodies hnonempty
  · rw [hselections]
    exact legal_replaced hlifted _ hlegal

end Extraction

/-! ## Lifting -/

namespace Lifting

variable {s : Schema}

theorem isContinue_underscore : ∀ c ∈ "_".toList, Name.isContinue c = true := by
  have hword : "_".toList.all Name.isContinue = true := by decide
  exact List.all_eq_true.mp hword

/-- Names joined with underscores are a name. -/
theorem isValid_joined {names : List String} (hne : names ≠ [])
    (h : ∀ name ∈ names, Name.isValid name = true) :
    Name.isValid (Text.joined "_" names) = true := by
  unfold Text.joined
  induction names with
  | nil => exact absurd rfl hne
  | cons name rest ih =>
    rw [List.forall_mem_cons] at h
    cases rest with
    | nil =>
      have hsingle : "_".intercalate [name] = name := by simp
      rw [hsingle]
      exact h.1
    | cons next others =>
      have hrest := ih (List.cons_ne_nil _ _) h.2
      have hjoined : "_".intercalate (name :: next :: others) =
          name ++ ("_" ++ "_".intercalate (next :: others)) := by
        refine String.toList_inj.mp ?_
        simp [String.toList_intercalate]
      rw [hjoined]
      refine Name.isValid_append h.1 fun c hc => ?_
      rw [String.toList_append, List.mem_append] at hc
      exact hc.elim (isContinue_underscore c) (Name.isContinue_of_mem hrest c)

theorem isValid_baseName {path : List String} (hne : path ≠ [])
    (hp : ∀ name ∈ path, Name.isValid name = true) {argument : String}
    (ha : Name.isValid argument = true) : Name.isValid (baseName path argument) = true := by
  unfold baseName
  exact Name.isValid_append (Name.isValid_append (isValid_joined hne hp) isContinue_underscore)
    (Name.isContinue_of_mem ha)

theorem isValid_numbered {base : String} (h : Name.isValid base = true) (n : Nat) :
    Name.isValid (numbered base n) = true := by
  unfold numbered
  refine Name.isValid_append (Name.isValid_append h isContinue_underscore) fun c hc => ?_
  rw [Nat.toList_repr] at hc
  exact Executable.isContinue_of_isDigit (Text.isDigit_of_mem_toDigits hc)

theorem isValid_freshName {base : String} (h : Name.isValid base = true) (taken : List String) :
    Name.isValid (freshName taken base) = true := by
  unfold freshName
  split
  · dsimp only
    cases hfind : ((List.range (taken.length + 1)).map fun n => numbered base (n + 2)).find?
        (!taken.contains ·) with
    | none => exact h
    | some name =>
      obtain ⟨n, -, rfl⟩ := List.mem_map.mp (List.mem_of_find?_eq_some hfind)
      exact isValid_numbered h _
  · exact h

/-- What holds of the variables that arguments are lifted to holds of all declarations. -/
theorem forall_liftArguments {P : VariableDeclaration → Prop} {path : List String}
    {arguments : List FieldArgument}
    (hP : ∀ a ∈ arguments, ∀ taken parameter,
      P ⟨freshName taken (baseName path a.name), a.type, parameter⟩)
    {declared : Declarations} (hd : ∀ d ∈ declared, P d) :
    ∀ d ∈ (liftArguments path declared arguments).2, P d := by
  induction arguments generalizing declared with
  | nil => exact hd
  | cons a rest ih =>
    rw [List.forall_mem_cons] at hP
    rw [liftArguments]
    split
    · refine ih hP.2 ?_
      rw [List.forall_mem_append, List.forall_mem_singleton]
      exact ⟨hd, hP.1 _ _⟩
    · exact ih hP.2 hd

/-- What holds of a variable that is called after some path of valid names and an argument holds of
    all variables that a selection list is lifted to. -/
theorem forall_liftSelections {P : VariableDeclaration → Prop} {selections : List Selection}
    (hk : ∀ f ∈ allFields selections, Name.isValid f.responseKey = true)
    (hP : ∀ f ∈ allFields selections, ∀ a ∈ f.arguments, ∀ path, path ≠ [] →
      (∀ name ∈ path, Name.isValid name = true) → ∀ taken parameter,
        P ⟨freshName taken (baseName path a.name), a.type, parameter⟩)
    {path : List String} (hp : ∀ name ∈ path, Name.isValid name = true)
    {declared : Declarations} (hd : ∀ d ∈ declared, P d) :
    ∀ d ∈ (liftSelections path declared selections).2, P d := by
  induction selections using listInduction generalizing path declared with
  | nil =>
    rw [liftSelections]
    exact hd
  | field f subs rest ihs ihr =>
    rw [allFields, List.forall_mem_cons, List.forall_mem_append] at hk hP
    have hpath : ∀ name ∈ path ++ [f.responseKey], Name.isValid name = true := by
      rw [List.forall_mem_append, List.forall_mem_singleton]
      exact ⟨hp, hk.1⟩
    have hne : path ++ [f.responseKey] ≠ [] :=
      List.append_ne_nil_of_right_ne_nil _ (List.cons_ne_nil _ _)
    have harguments := forall_liftArguments (fun a ha => hP.1 a ha _ hne hpath) hd
    rw [liftSelections]
    exact ihr hk.2.2 hP.2.2 hp (ihs hk.2.1 hP.2.1 hpath harguments)
  | spread name condition rest ihr =>
    rw [allFields] at hk hP
    rw [liftSelections]
    exact ihr hk hP hp hd
  | inline condition subs rest ihs ihr =>
    rw [allFields, List.forall_mem_append] at hk hP
    rw [liftSelections]
    exact ihr hk.2 hP.2 hp (ihs hk.1 hP.1 hp hd)
  | marker name condition subs rest ihs ihr =>
    rw [allFields, List.forall_mem_append] at hk hP
    rw [liftSelections]
    exact ihr hk.2 hP.2 hp (ihs hk.1 hP.1 hp hd)

theorem forall_liftFragments {P : VariableDeclaration → Prop}
    {fragments : List FragmentDefinition} (hn : ∀ d ∈ fragments, Name.isValid d.name = true)
    (hk : ∀ f ∈ fragments.flatMap (allFields ·.selections), Name.isValid f.responseKey = true)
    (hP : ∀ f ∈ fragments.flatMap (allFields ·.selections), ∀ a ∈ f.arguments, ∀ path,
      path ≠ [] → (∀ name ∈ path, Name.isValid name = true) → ∀ taken parameter,
        P ⟨freshName taken (baseName path a.name), a.type, parameter⟩)
    {declared : Declarations} (hd : ∀ d ∈ declared, P d) :
    ∀ d ∈ (liftFragments declared fragments).2, P d := by
  induction fragments generalizing declared with
  | nil => exact hd
  | cons d rest ih =>
    rw [List.forall_mem_cons] at hn
    rw [List.flatMap_cons, List.forall_mem_append] at hk hP
    rw [liftFragments]
    exact ih hn.2 hk.2 hP.2
      (forall_liftSelections hk.1 hP.1 (List.forall_mem_singleton.mpr hn.1) hd)

/-- What holds of a variable that is called after some path of valid names and an argument holds of
    all variables that an operation is lifted to. -/
theorem forall_lift {P : VariableDeclaration → Prop} {set set' : SelectionSet}
    {fragments fragments' : List FragmentDefinition} {declared : Declarations}
    (h : lift set fragments = (set', fragments', declared))
    (hn : ∀ d ∈ fragments, Name.isValid d.name = true)
    (hk : ∀ f ∈ documentFields set.selections fragments, Name.isValid f.responseKey = true)
    (hP : ∀ f ∈ documentFields set.selections fragments, ∀ a ∈ f.arguments, ∀ path,
      path ≠ [] → (∀ name ∈ path, Name.isValid name = true) → ∀ taken parameter,
        P ⟨freshName taken (baseName path a.name), a.type, parameter⟩) :
    ∀ d ∈ declared, P d := by
  unfold lift at h
  simp only [Prod.mk.injEq] at h
  obtain ⟨-, -, rfl⟩ := h
  rw [documentFields, List.forall_mem_append] at hk hP
  exact forall_liftFragments hn hk.2 hP.2
    (forall_liftSelections hk.1 hP.1 (by simp) (by simp))

/-- Lifting makes legal arguments of legal arguments. -/
theorem legal_liftArguments {path : List String} (hne : path ≠ [])
    (hp : ∀ name ∈ path, Name.isValid name = true) (declared : Declarations)
    {arguments : List FieldArgument} (ha : ∀ a ∈ arguments, a.Legal) :
    ∀ a ∈ (liftArguments path declared arguments).1, a.Legal := by
  induction arguments generalizing declared with
  | nil => exact ha
  | cons a rest ih =>
    rw [List.forall_mem_cons] at ha
    obtain ⟨ha, hrest⟩ := ha
    rw [liftArguments]
    split
    · have hname := isValid_freshName (isValid_baseName hne hp ha.name) (declared.map (·.name))
      refine List.forall_mem_cons.mpr ⟨⟨ha.name, ha.type, ?_, ?_⟩, ih _ hrest⟩
      · intro l hl
        cases hl
      · intro v hv
        cases hv
        exact hname
    · exact List.forall_mem_cons.mpr ⟨ha, ih _ hrest⟩

theorem liftArguments_names (path : List String) (declared : Declarations)
    (arguments : List FieldArgument) :
    (liftArguments path declared arguments).1.map (·.name) = arguments.map (·.name) := by
  induction arguments generalizing declared with
  | nil => rfl
  | cons a rest ih =>
    rw [liftArguments]
    split
    · rw [List.map_cons, List.map_cons, ih]
    · rw [List.map_cons, List.map_cons, ih]

/-- Lifting keeps the arguments of a field in their order. -/
theorem declared_liftArguments {f : Field} (h : f.Declared s) (path : List String)
    (declared : Declarations) :
    { f with arguments := (liftArguments path declared f.arguments).1 }.Declared s := by
  rcases h with ⟨hname, hnone⟩ | ⟨key, d, hd, hname, hnames⟩
  · refine Or.inl ⟨hname, ?_⟩
    rw [hnone]
    rfl
  · refine Or.inr ⟨key, d, hd, hname, ?_⟩
    rw [← hnames]
    exact liftArguments_names path declared f.arguments

theorem isValid_responseKey {f : Field} (h : f.Legal s) : Name.isValid f.responseKey = true := by
  unfold Field.responseKey
  cases halias : f.aliasName with
  | none => exact h.name
  | some a => exact h.aliases a halias

theorem liftSelections_ne_nil {path : List String} {declared : Declarations}
    {selections : List Selection} (hne : selections ≠ []) :
    (liftSelections path declared selections).1 ≠ [] := by
  cases selections with
  | nil => exact absurd rfl hne
  | cons s rest =>
    cases s <;>
    · rw [liftSelections]
      exact List.cons_ne_nil _ _

/-- Lifting makes a legal list of a legal list. -/
theorem legal_liftSelections {path : List String} (hp : ∀ name ∈ path, Name.isValid name = true)
    (declared : Declarations) {selections : List Selection} (h : Selection.Legal s selections) :
    Selection.Legal s (liftSelections path declared selections).1 := by
  induction h generalizing path declared with
  | nil =>
    rw [liftSelections]
    exact .nil
  | @field f subs rest hf _ _ ihs ihr =>
    have hpath : ∀ name ∈ path ++ [f.responseKey], Name.isValid name = true := by
      rw [List.forall_mem_append, List.forall_mem_singleton]
      exact ⟨hp, isValid_responseKey hf⟩
    have hne : path ++ [f.responseKey] ≠ [] :=
      List.append_ne_nil_of_right_ne_nil _ (List.cons_ne_nil _ _)
    have harguments := legal_liftArguments hne hpath declared hf.arguments
    have hdeclared := declared_liftArguments hf.declared (path ++ [f.responseKey]) declared
    rw [liftSelections]
    exact .field ⟨hf.name, hf.aliases, harguments, hdeclared⟩ (ihs hpath _) (ihr hp _)
  | spread hn _ ihr =>
    rw [liftSelections]
    exact .spread hn (ihr hp _)
  | inline hc hne _ _ ihs ihr =>
    rw [liftSelections]
    exact .inline hc (liftSelections_ne_nil hne) (ihs hp _) (ihr hp _)
  | marker hn hc hne _ _ ihs ihr =>
    rw [liftSelections]
    exact .marker hn hc (liftSelections_ne_nil hne) (ihs hp _) (ihr hp _)

theorem legal_liftFragments (declared : Declarations) {fragments : List FragmentDefinition}
    (h : ∀ d ∈ fragments, d.Legal s) : ∀ d ∈ (liftFragments declared fragments).1, d.Legal s := by
  induction fragments generalizing declared with
  | nil => exact h
  | cons d rest ih =>
    rw [List.forall_mem_cons] at h
    obtain ⟨hlegal, hrest⟩ := h
    have hpath : ∀ name ∈ [d.name], Name.isValid name = true :=
      List.forall_mem_singleton.mpr hlegal.name.1
    have hselections := legal_liftSelections hpath declared hlegal.selections
    rw [liftFragments]
    refine List.forall_mem_cons.mpr ⟨?_, ih _ hrest⟩
    exact ⟨hlegal.name, hlegal.condition, liftSelections_ne_nil hlegal.nonempty, hselections⟩

/-- What lifting makes of a legal operation is legal. -/
theorem lift_legal {set set' : SelectionSet} {fragments fragments' : List FragmentDefinition}
    {declared : Declarations} (h : lift set fragments = (set', fragments', declared))
    (hne : set.selections ≠ []) (hs : Selection.Legal s set.selections)
    (hf : ∀ d ∈ fragments, d.Legal s) :
    set'.selections ≠ [] ∧ Selection.Legal s set'.selections ∧ (∀ d ∈ fragments', d.Legal s) ∧
      ∀ d ∈ declared, d.Legal := by
  have hfields : ∀ f ∈ documentFields set.selections fragments, f.Legal s := by
    rw [documentFields, List.forall_mem_append]
    refine ⟨hs.of_mem_allFields, fun f hmem => ?_⟩
    obtain ⟨d, hd, hmem⟩ := List.mem_flatMap.mp hmem
    exact (hf d hd).selections.of_mem_allFields f hmem
  have hdeclared : ∀ d ∈ declared, d.Legal := by
    refine forall_lift h (fun d hd => (hf d hd).name.1)
      (fun f hmem => isValid_responseKey (hfields f hmem)) ?_
    intro f hmem a ha path hpath hvalid taken parameter
    have hlegal := (hfields f hmem).arguments a ha
    exact ⟨isValid_freshName (isValid_baseName hpath hvalid hlegal.name) taken, hlegal.type⟩
  unfold lift at h
  simp only [Prod.mk.injEq] at h
  obtain ⟨rfl, rfl, -⟩ := h
  exact ⟨liftSelections_ne_nil hne, legal_liftSelections (by simp) _ hs,
    legal_liftFragments _ hf, hdeclared⟩

end Lifting

/-! ## The whole compilation -/

/-- What is compiled on a legal schema is legal. -/
theorem compile_legal {schema : Schema} (hs : schema.Legal) {settings : Settings}
    {shape : OperationShape} (hl : ∀ request ∈ Member.requests shape.members, request.Spellable)
    (hf : ∀ fragment ∈ Member.fragments shape.members, fragment.name ≠ some "on")
    {query : CompiledQuery} (h : compile schema settings shape = .ok query) :
    query.Legal schema := by
  unfold compile at h
  simp only [bind_eq_ok, pure_eq_ok] at h
  obtain ⟨set, ha, ⟨extracted, fragments⟩, hx, document, -, rfl⟩ := h
  obtain ⟨hname, -⟩ := Analysis.checks_of_analyze ha
  obtain ⟨hne, hlegal⟩ := Analysis.analyze_legal hs hl hf ha
  have hspreads := (Analysis.analyze_faithful ha).noSpreads
  obtain ⟨hne, hlegal, hfragments⟩ := Extraction.extract_legal hx hspreads hne hlegal
  obtain ⟨hne, hlegal, hfragments, hdeclared⟩ := Lifting.lift_legal rfl hne hlegal hfragments
  obtain ⟨lifted, rfl, -⟩ := Extraction.extract_eq_ok hx hspreads
  obtain ⟨root, subs, -, -, -, rfl, -⟩ := Analysis.analyze_eq_ok ha
  exact ⟨hname, hne, hlegal, hfragments, hdeclared⟩

end QueryShapes
