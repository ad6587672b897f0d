/-
  The spelling of a document: what its names and constants may be where they stand.

  On a schema of valid names whatever compiles has valid names for its aliases,
  variables and object keys, finite floats, and a body for every fragment
  (`compile_spelled`).  Two places admit words that the language reserves: a
  fragment of the shape may be called `on`, and a custom scalar may be given an
  enum value that is `true`, `false` or `null`.  Every other fragment name and
  enum value is one that the language has.
-/
import QueryShapes.Proofs.Analysis.Lists
import QueryShapes.Proofs.Document.Legality
import QueryShapes.Proofs.Executable.RoundTrip
import QueryShapes.Proofs.Literal.Parts

namespace QueryShapes

open Selection Extraction
open Executable (starSchema starShape starQuery spellable_starShape compile_star)
open Lifting (documentFields documentArguments documentArguments_eq restoreValue forall_lift
  isValid_freshName isValid_baseName mem_variableNames_iff)

/-! ## Spelled operations -/

structure FieldArgument.Spelled (s : Schema) (a : FieldArgument) : Prop where
  name : Name.isValid a.name = true
  literals : ∀ l, a.value = .literal l → s.Spelled a.type l
  names : ∀ v, a.value = .documentVariable v → Name.isValid v = true

structure Field.Spelled (s : Schema) (f : Field) : Prop where
  name : Name.isValid f.name = true
  aliases : ∀ a, f.aliasName = some a → Name.isValid a = true
  arguments : ∀ a ∈ f.arguments, a.Spelled s

/-- Names for fragments of a document: those of the language, and `on` where some fragment of the
    shape is called so. -/
def OperationShape.FragmentName (shape : OperationShape) (name : String) : Prop :=
  IsFragmentName name ∨
    name = "on" ∧ ∃ fragment ∈ Member.fragments shape.members, fragment.name = some "on"

structure FragmentDefinition.Spelled (shape : OperationShape) (d : FragmentDefinition) :
    Prop where
  name : shape.FragmentName d.name
  nonempty : d.selections ≠ []
  bodies : HasBodies d.selections
  spreads : ∀ x ∈ allSpreads d.selections, shape.FragmentName x.1

structure CompiledQuery.Spelled (s : Schema) (shape : OperationShape) (query : CompiledQuery) :
    Prop where
  name : ∀ n, query.selectionSet.operationName = some n → Name.isValid n = true
  nonempty : query.selectionSet.selections ≠ []
  bodies : HasBodies query.selectionSet.selections
  spreads : ∀ x ∈ allSpreads query.selectionSet.selections, shape.FragmentName x.1
  fragments : ∀ d ∈ query.fragments, d.Spelled shape
  fields : ∀ f ∈ documentFields query.selectionSet.selections query.fragments, f.Spelled s
  declarations : ∀ d ∈ query.declarations, Name.isValid d.name = true

theorem Field.Spelled.isValid_responseKey {s : Schema} {f : Field} (h : f.Spelled s) :
    Name.isValid f.responseKey = true := by
  unfold Field.responseKey
  cases halias : f.aliasName with
  | none => exact h.name
  | some a => exact h.aliases a halias

/-! ## Fragments of a shape -/

namespace Member

theorem fragments_append (as bs : List Member) :
    fragments (as ++ bs) = fragments as ++ fragments bs := by
  induction as with
  | nil => simp [fragments]
  | cons a as ih => cases a <;> simp [fragments, ih]

theorem fragments_members {m : Member} {ms : List Member} (hm : m ∈ ms) :
    ∀ fragment ∈ fragments m.members, fragment ∈ fragments ms := by
  obtain ⟨before, after, rfl⟩ := List.append_of_mem hm
  cases m <;> simp +contextual [fragments_append, members, fragments]

/-- The fragments of a list of a shape are fragments of the shape. -/
theorem ListIn.fragments {whole ms : List Member} (h : ListIn whole ms) :
    ∀ fragment ∈ Member.fragments ms, fragment ∈ Member.fragments whole := by
  induction h with
  | root => exact fun fragment hf => hf
  | inner _ hm ih => exact fun fragment hf => ih fragment (fragments_members hm fragment hf)

theorem mem_fragments_of_spread {fragment : FragmentHead} {inner ms : List Member}
    (h : .spread fragment inner ∈ ms) : fragment ∈ fragments ms := by
  obtain ⟨before, after, rfl⟩ := List.append_of_mem h
  simp [fragments_append, fragments]

end Member

/-! ## Analysis -/

namespace Analysis

variable {schema : Schema} {shape : OperationShape} {limit : Nat} {set : SelectionSet}

theorem spelled_typename (s : Schema) (parent : String) {aliasName : Option String}
    (injected : Bool) (ha : ∀ a, aliasName = some a → Name.isValid a = true) :
    (Field.typename parent aliasName injected).Spelled s := by
  have hname : Name.isValid Name.typename = true := by decide
  exact ⟨hname, ha, fun a ha => by cases ha⟩

namespace Resolver

variable {r : Resolver} {parent : String} {depth : Nat} {taken : List String}

theorem spelled_of_bound (hs : r.schema.WellNamed) (hu : r.schema.UnreservedEnums)
    {inputs : List ArgumentInput} (hl : ∀ l, .literal l ∈ inputs → l.DistinctKeys)
    {a : FieldArgument} (hn : Name.isValid a.name = true) (hb : Bound r inputs a) :
    a.Spelled r.schema := by
  refine ⟨hn, fun l hv => ?_, fun v hv => ?_⟩
  · rcases hb with hb | ⟨p, -, hb⟩ | ⟨l', hmem, hb, haccepts⟩
    · rw [hb] at hv
      cases hv
    · rw [hb] at hv
      cases hv
    · rw [hb] at hv
      cases hv
      exact Schema.spelled_of_acceptsLiteral hs hu (hl l hmem) haccepts
  · rcases hb with hb | ⟨p, -, hb⟩ | ⟨l, -, hb, -⟩ <;>
    · rw [hb] at hv
      cases hv

theorem spelled_of_field (hs : r.schema.WellNamed) (hu : r.schema.UnreservedEnums)
    {request : FieldRequest} (hl : ∀ l, .literal l ∈ request.inputs → l.DistinctKeys)
    {hasSelection isEmpty : Bool} {f : Field}
    (h : r.field parent request hasSelection isEmpty = .ok f) : f.Spelled r.schema := by
  have halias : ∀ a, request.aliasName = some a → Name.isValid a = true := fun a ha =>
    validAlias_of_field h ha
  have hbound := field_bound h
  rcases field_eq_ok h with ⟨-, hmeta⟩ | hdeclared
  · rw [metaField_eq_ok hmeta]
    exact spelled_typename r.schema parent false halias
  · obtain ⟨d, arguments, hd, hargs, -, -, rfl⟩ := declaredField_eq_ok hdeclared
    obtain ⟨hname, hnames⟩ := hs.field hd
    refine ⟨hname, halias, fun a ha => ?_⟩
    obtain ⟨b, hb, hba⟩ := exists_definition (bindArguments_typed hargs) ha
    exact spelled_of_bound hs hu hl (hba.name ▸ hnames b hb) (hbound a ha)

theorem hasBodies_withTypename {selections : List Selection} (h : HasBodies selections) :
    HasBodies (withTypename parent selections) := by
  unfold withTypename
  split
  · exact hasBodies_append.mpr ⟨h, by simp [HasBodies]⟩
  · exact h

/-- Whatever is resolved has bodies for its fragments. -/
theorem hasBodies_resolveMembers {members : List Member} {selections : List Selection}
    (h : r.resolveMembers parent depth taken members = .ok selections) : HasBodies selections := by
  induction members using Member.listInduction generalizing parent depth taken selections with
  | nil =>
    rw [resolveMembers_nil] at h
    cases h
    simp [HasBodies]
  | leaf request rest ihr =>
    obtain ⟨s, taken', others, hx, -, ho, rfl⟩ := resolveMembers_cons h
    obtain ⟨f, -, rfl⟩ := resolveMember_leaf hx
    rw [HasBodies, HasBodies]
    exact ⟨trivial, ihr ho⟩
  | nested request ms rest ihs ihr =>
    obtain ⟨s, taken', others, hx, -, ho, rfl⟩ := resolveMembers_cons h
    obtain ⟨f, subs, -, -, hsubs, rfl⟩ := resolveMember_nested hx
    rw [HasBodies]
    exact ⟨hasBodies_withTypename (ihs hsubs), ihr ho⟩
  | reusing request fragment ms rest ihs ihr =>
    obtain ⟨s, taken', others, hx, -, ho, rfl⟩ := resolveMembers_cons h
    obtain ⟨f, subs, -, hfragment, -, hsubs, rfl⟩ := resolveMember_reusing hx
    have hempty := (checkFragment_eq_ok hfragment).2.2.1
    have hne := ne_nil_of_resolveMembers hsubs (ne_nil_of_isEmpty hempty)
    have hmarker : HasBodies [.marker fragment.name fragment.onType
        (withTypename fragment.onType subs)] := by
      rw [HasBodies, HasBodies]
      exact ⟨withTypename_ne_nil _ hne, hasBodies_withTypename (ihs hsubs), trivial⟩
    rw [HasBodies]
    exact ⟨hasBodies_withTypename hmarker, ihr ho⟩
  | spread fragment ms rest ihs ihr =>
    obtain ⟨s, taken', others, hx, -, ho, rfl⟩ := resolveMembers_cons h
    obtain ⟨subs, hfragment, -, hsubs, rfl⟩ := resolveMember_spread hx
    have hempty := (checkFragment_eq_ok hfragment).2.2.1
    have hne := ne_nil_of_resolveMembers hsubs (ne_nil_of_isEmpty hempty)
    rw [HasBodies]
    exact ⟨withTypename_ne_nil _ hne, hasBodies_withTypename (ihs hsubs), ihr ho⟩
  | narrowed condition ms rest ihs ihr =>
    obtain ⟨s, taken', others, hx, -, ho, rfl⟩ := resolveMembers_cons h
    obtain ⟨subs, hcondition, -, hsubs, rfl⟩ := resolveMember_narrowed hx
    have hempty := (checkCondition_eq_ok hcondition).2.1
    have hne := ne_nil_of_resolveMembers hsubs (ne_nil_of_isEmpty hempty)
    rw [HasBodies]
    exact ⟨withTypename_ne_nil _ hne, hasBodies_withTypename (ihs hsubs), ihr ho⟩

end Resolver

theorem analyze_hasBodies (h : analyze schema shape limit = .ok set) :
    set.selections ≠ [] ∧ HasBodies set.selections := by
  obtain ⟨root, subs, -, -, hsubs, rfl, -⟩ := analyze_eq_ok h
  have hne := Resolver.ne_nil_of_resolveMembers hsubs (checks_of_analyze h).2
  exact ⟨withTypename_ne_nil _ hne,
    Resolver.hasBodies_withTypename (Resolver.hasBodies_resolveMembers hsubs)⟩

theorem analyze_spelled (hs : schema.WellNamed) (hu : schema.UnreservedEnums)
    (hl : ∀ request ∈ Member.requests shape.members, ∀ l, .literal l ∈ request.inputs →
      l.DistinctKeys) (h : analyze schema shape limit = .ok set) :
    ∀ f ∈ allFields set.selections, f.Spelled schema := by
  intro f hf
  obtain ⟨type, hrequested | rfl⟩ := analyze_fields h hf
  · obtain ⟨request, hrequest, hasSelection, isEmpty, hfield⟩ := hrequested
    exact Resolver.spelled_of_field hs hu (hl request hrequest) hfield
  · exact spelled_typename schema type true (by simp)

/-- The markers of an analyzed tree are fragments of the shape, under the names that these have, on
    composite types. -/
theorem analyze_fragments (h : analyze schema shape limit = .ok set) {m : Marker}
    (hm : m ∈ allMarkers set.selections) :
    ⟨m.name, m.typeCondition⟩ ∈ Member.fragments shape.members ∧
      (∀ n, m.name = some n → Name.isValid n = true) ∧
      schema.isComposite m.typeCondition = true := by
  obtain ⟨ms, inner, hms, hmem, type, hcheck⟩ := analyze_markers h hm
  obtain ⟨hnames, hcomposite, -⟩ := Resolver.checkFragment_eq_ok hcheck
  exact ⟨hms.fragments _ (Member.mem_fragments_of_spread hmem), hnames, hcomposite⟩

end Analysis

/-! ## The whole compilation -/

section Stages

variable {schema : Schema} {shape : OperationShape} {limit : Nat} {set set' : SelectionSet}
  {lifted : Lifted} {fragments fragments' : List FragmentDefinition}
  {declared : Lifting.Declarations}

/-- The definitions of an extracted operation are called by names for fragments. -/
theorem fragmentName_of_extracted (hs : schema.WellNamed)
    (ha : Analysis.analyze schema shape limit = .ok set)
    (hn : nameGroups [] (countMarkers [] set.selections) = .ok lifted)
    (he : Extracted set lifted fragments) {d : FragmentDefinition} (hd : d ∈ fragments) :
    shape.FragmentName d.name := by
  obtain ⟨m, hm, hname⟩ := (he.lifts d hd).name_cases hn
  obtain ⟨hmem, hnames, hcomposite⟩ := Analysis.analyze_fragments ha hm
  rcases hname with hname | ⟨fingerprint, hname⟩
  · by_cases hon : d.name = "on"
    · exact Or.inr ⟨hon, _, hmem, hname.trans (congrArg some hon)⟩
    · exact Or.inl ⟨hnames _ hname, hon⟩
  · rw [hname]
    exact Or.inl (isFragmentName_derivedName (hs.composite hcomposite) fingerprint)

theorem OperationShape.FragmentName.isValid {name : String} (h : shape.FragmentName name) :
    Name.isValid name = true := by
  rcases h with h | ⟨rfl, -⟩
  · exact h.1
  · decide

/-- A field is spelled as it is with its parameters written back, if its variables are. -/
theorem Field.Spelled.of_mapValues {s : Schema} {f : Field}
    (h : (f.mapValues (restoreValue declared)).Spelled s)
    (hv : ∀ a ∈ f.arguments, ∀ v, a.value = .documentVariable v → Name.isValid v = true) :
    f.Spelled s := by
  refine ⟨h.name, h.aliases, fun a ha => ?_⟩
  have harg := h.arguments _ (List.mem_map_of_mem ha)
  refine ⟨harg.name, fun l hl => harg.literals l ?_, hv a ha⟩
  rw [FieldArgument.mapValue, hl]
  rfl

/-- The variables that an extracted operation is lifted to have valid names. -/
theorem isValid_of_mem_declared
    (hf : ∀ f ∈ allFields set.selections, f.Spelled schema)
    (hn : ∀ d ∈ fragments, shape.FragmentName d.name) (he : Extracted set lifted fragments)
    (hl : Lifting.lift { set with selections := replaced lifted set.rootType set.selections }
      fragments = (set', fragments', declared)) :
    ∀ d ∈ declared, Name.isValid d.name = true := by
  have hfields := fun f hmem => hf f (Compiled.mem_fields_of_extracted he hmem)
  refine forall_lift hl (fun d hd => (hn d hd).isValid)
    (fun f hmem => (hfields f hmem).isValid_responseKey) ?_
  intro f hmem a ha path hpath hvalid taken parameter
  have hname := ((hfields f hmem).arguments a ha).name
  exact isValid_freshName (isValid_baseName hpath hvalid hname) taken

/-- The variables of lifted arguments are declared ones. -/
theorem isValid_of_lifts {as bs : List FieldArgument} (h : Lifting.Lifts [] declared as bs)
    (hd : ∀ d ∈ declared, Name.isValid d.name = true) :
    ∀ a ∈ bs, ∀ v, a.value = .documentVariable v → Name.isValid v = true := by
  intro a ha v hv
  obtain ⟨new, rfl, hnames, -⟩ := h.grows
  have hmem : v ∈ Lifting.variableNames bs := mem_variableNames_iff.mpr ⟨a, ha, hv⟩
  rw [hnames] at hmem
  obtain ⟨d, hnew, rfl⟩ := List.mem_map.mp hmem
  exact hd d hnew

/-- What is replaced and lifted of a list with bodies has bodies. -/
theorem hasBodies_of_mapValues {g : ArgumentValue → ArgumentValue} {parent : String}
    {selections written : List Selection} (h : HasBodies selections) (hne : selections ≠ [])
    (hw : mapValues g written = replaced lifted parent selections) :
    written ≠ [] ∧ HasBodies written := by
  constructor
  · rw [ne_eq, ← mapValues_eq_nil (g := g), hw]
    exact replaced_ne_nil _ _ h hne
  · rw [← hasBodies_mapValues (g := g), hw]
    exact hasBodies_replaced _ _ h

end Stages

/-- Whatever compiles on a schema of valid names is spelled as the language wants it, fragments that
    the shape calls `on` and reserved words that are given for custom scalars apart. -/
theorem compile_spelled {schema : Schema} (hs : schema.WellNamed) (hu : schema.UnreservedEnums)
    {settings : Settings} {shape : OperationShape}
    (hl : ∀ request ∈ Member.requests shape.members, ∀ l, .literal l ∈ request.inputs →
      l.DistinctKeys) {query : CompiledQuery}
    (h : compile schema settings shape = .ok query) :
    query.Spelled schema shape ∧ query.document = Document.render settings.pretty
      (Document.pieces query.selectionSet query.fragments query.declarations) := by
  obtain ⟨hresolved, hdocument⟩ := resolved_of_compile h
  obtain ⟨set, lifted, fragments, ha, hnames, he, hlift, -⟩ := compile_stages h
  obtain ⟨hlifts, hsel, hdef, hset⟩ := lift_extracted ha he hlift
  obtain ⟨hne, hbodies⟩ := Analysis.analyze_hasBodies ha
  have hfields := Analysis.analyze_spelled hs hu hl ha
  have hextracted : ∀ d ∈ fragments, shape.FragmentName d.name := fun d hd =>
    fragmentName_of_extracted hs ha hnames he hd
  have hdeclared := isValid_of_mem_declared hfields hextracted he hlift
  have hdefinition : ∀ d ∈ query.fragments,
      d.mapValues (restoreValue query.declarations) ∈ fragments := fun d hd =>
    hdef ▸ List.mem_map_of_mem hd
  have hfragment : ∀ d ∈ query.fragments, shape.FragmentName d.name := fun d hd =>
    hextracted (d.mapValues (restoreValue query.declarations)) (hdefinition d hd)
  have hspread : ∀ {selections : List Selection},
      Selection.Resolved (query.fragments.map (·.name)) selections →
        ∀ x ∈ allSpreads selections, shape.FragmentName x.1 := by
    intro selections hr x hx
    obtain ⟨d, hd, hname⟩ := List.mem_map.mp (hr.spreads x hx)
    exact hname ▸ hfragment d hd
  obtain ⟨hnonempty, hbodied⟩ := hasBodies_of_mapValues hbodies hne hsel
  have hspelled : query.Spelled schema shape := by
    refine ⟨?_, hnonempty, hbodied, hspread hresolved.selections, fun d hd => ?_, fun f hf => ?_,
      hdeclared⟩
    · intro n hn
      have hchecked := (Analysis.checks_of_analyze ha).1
      obtain ⟨root, subs, -, -, -, rfl, -⟩ := Analysis.analyze_eq_ok ha
      rw [hset] at hn
      exact hchecked n hn
    · obtain ⟨m, hm, -, -, hselections⟩ := he.lifts _ (hdefinition d hd)
      obtain ⟨hne, hbodies⟩ := hbodies.of_mem_allMarkers hm
      obtain ⟨hnonempty, hbodied⟩ := hasBodies_of_mapValues hbodies hne hselections
      exact ⟨hfragment d hd, hnonempty, hbodied, hspread (hresolved.fragments d hd)⟩
    · refine (hfields _ (mem_allFields_of_lift ha he hlift hf)).of_mapValues fun a harg => ?_
      refine isValid_of_lifts hlifts hdeclared a ?_
      rw [documentArguments_eq, List.mem_flatMap]
      exact ⟨f, hf, harg⟩
  exact ⟨hspelled, hdocument⟩

/-- The star shape is spelled as the language wants it. -/
theorem compile_spelled_star :
    starSchema.WellNamed ∧ compile starSchema {} starShape = .ok starQuery ∧
      starQuery.Spelled starSchema starShape := by
  have hnamed : starSchema.WellNamed := by decide
  have hunreserved : starSchema.UnreservedEnums := by decide
  have hkeys : ∀ request ∈ Member.requests starShape.members,
      ∀ l, .literal l ∈ request.inputs → l.DistinctKeys := fun request hr l hl =>
    (spellable_starShape request hr l hl).1
  exact ⟨hnamed, compile_star, (compile_spelled hnamed hunreserved hkeys compile_star).1⟩

/-! ## Reserved words -/

/-- A schema with heroes that are asked for by a tag of any form. -/
def tagSchema : Schema :=
  ⟨"Query", none, [
    ("Query", .object ⟨"Query", [],
      [("hero", ⟨"hero", .named "Hero", [⟨"tag", .named "JSON", none⟩]⟩)]⟩),
    ("Hero", .object ⟨"Hero", [], [("name", ⟨"name", .string, []⟩)]⟩),
    ("JSON", .scalar "JSON")]⟩

/-- A hero asked for by an enum value that is a reserved word, through a fragment called `on`. -/
def tagShape : OperationShape where
  kind := .query
  members := [.reusing { name := "hero", named := [("tag", .literal (.enum "true"))] }
    ⟨some "on", "Hero"⟩ [.leaf { name := "name" }]]

def tagField : Field :=
  ⟨"hero", none, "Query", .named "Hero", [⟨"tag", .named "JSON", .literal (.enum "true"), none⟩],
    false⟩

/-- The operation of the tag shape, with what stands below its field. -/
def tagOperation (subs : List Selection) : SelectionSet :=
  ⟨.query, none, "Query", [.field tagField subs]⟩

def tagCompiled : SelectionSet := tagOperation [.spread "on" "Hero"]

def tagFragments : List FragmentDefinition := [⟨"on", "Hero", heroContent⟩]

/-- The compiled tag shape. -/
def tagQuery : CompiledQuery where
  document := Document.render true (Document.pieces tagCompiled tagFragments [])
  operationName := none
  declarations := []
  selectionSet := tagCompiled
  fragments := tagFragments
  key := tagShape.key

theorem compile_tag : compile tagSchema {} tagShape = .ok tagQuery := by
  have ha : Analysis.analyze tagSchema tagShape 512 =
      .ok (tagOperation [.marker (some "on") "Hero" heroContent]) := by
    cbv
  have hx : extract (tagOperation [.marker (some "on") "Hero" heroContent]) =
      .ok (tagCompiled, tagFragments) := by
    simp [extract, tagOperation, tagCompiled, tagFragments, heroContent, countMarkers, groupKey,
      nameGroups, Group.isLifted, Group.definitionName, replaceMarkers, Lifted.name?,
      Entries.contains, Entries.insert, Entries.get?, Entries.values]
  have hl : Lifting.lift tagCompiled tagFragments = (tagCompiled, tagFragments, []) := by
    cbv
  have hd : Document.synthesize tagCompiled tagFragments [] true = .ok tagQuery.document := by
    simp [Document.synthesize, tagCompiled, tagFragments, tagOperation, tagField, heroContent,
      Document.checkResolved, Document.unresolvedArgument?, tagQuery, bind, Except.bind, pure,
      Except.pure]
  exact compile_of_steps ha hx hl hd

/-- On a schema of valid names a document may define a fragment `on` and hold an enum value
    `true`. -/
theorem compile_tag_reserved :
    compile tagSchema {} tagShape = .ok tagQuery ∧ tagSchema.WellNamed ∧
      tagSchema.UnreservedEnums ∧ (∃ d ∈ tagQuery.fragments, ¬ IsFragmentName d.name) ∧
      ∃ f ∈ documentFields tagQuery.selectionSet.selections tagQuery.fragments,
        ∃ a ∈ f.arguments, ∃ word, a.value = .literal (.enum word) ∧ ¬ IsEnumValue word := by
  refine ⟨compile_tag, by decide, by decide, ?_, ?_⟩
  · exact ⟨_, List.mem_cons_self, fun h => h.2 rfl⟩
  · refine ⟨tagField, by simp [documentFields, tagQuery, tagCompiled, tagOperation, allFields],
      _, List.mem_cons_self, "true", rfl, fun h => h.2 (by decide)⟩

end QueryShapes
