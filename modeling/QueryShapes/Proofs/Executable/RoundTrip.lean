/-
  The document of a compiled operation is read back.

  What is compiled on a legal schema is legal, so its text is scanned into the
  tokens of what was compiled, and the parser, which finds every derivation,
  reads it back (`read?_compile`).
-/
import QueryShapes.Proofs.Document.Resolution
import QueryShapes.Proofs.Executable.Completeness
import QueryShapes.Proofs.Executable.Written

namespace QueryShapes.Executable

open Analysis Extraction
open Document (render)

/-- The document of a compiled operation derives in the grammar as what was compiled and as nothing
    else, and is read back as that: the kind and the name of the operation, its variables with
    their types, the tree of its selections, every argument that is not left to its default, in
    the order of its declaration, with its constant or its variable, and the fragment definitions
    in order. -/
theorem read?_compile {schema : Schema} (hs : schema.Legal) {settings : Settings}
    {shape : OperationShape} (hl : ∀ request ∈ Member.requests shape.members, request.Spellable)
    (hf : ∀ fragment ∈ Member.fragments shape.members, fragment.name ≠ some "on")
    {query : CompiledQuery} (h : compile schema settings shape = .ok query) :
    query.Resolved ∧
      (∀ f ∈ Lifting.documentFields query.selectionSet.selections query.fragments,
        f.Declared schema) ∧
      (∃ ts, scan? query.document = some ts ∧
        ∀ d, DerivesDocument ts d ↔ d = written query) ∧
      read? query.document = some (written query) := by
  have hlegal := compile_legal hs hl hf h
  obtain ⟨hresolved, hdocument⟩ := resolved_of_compile h
  obtain ⟨ts, hscans, hderives⟩ := exists_document settings.pretty hlegal
  rw [← hdocument] at hscans
  have hscan := scan?_of_scans hscans
  have hdeclared := fun f hf => (hlegal.of_mem_documentFields f hf).declared
  have honly : ∀ d, DerivesDocument ts d ↔ d = written query := by
    refine fun d => ⟨fun hd => hd.unique hderives, ?_⟩
    rintro rfl
    exact hderives
  refine ⟨hresolved, hdeclared, ⟨ts, hscan, honly⟩, ?_⟩
  rw [read?, hscan]
  exact parse?_of_derives hderives

/-! ## Stars near a place -/

/-- A schema with stars that are asked for by a place, a kind and their names. -/
def starSchema : Schema :=
  ⟨"Query", none, [
    ("Query", .object ⟨"Query", [],
      [("stars", ⟨"stars", .nonNull (.list (.named "Star")),
        [⟨"near", .nonNull (.named "Place"), none⟩, ⟨"kind", .named "StarKind", none⟩,
          ⟨"names", .list (.nonNull .string), none⟩, ⟨"limit", .int, none⟩]⟩)]⟩),
    ("Star", .object ⟨"Star", [], [("name", ⟨"name", .nonNull .string, []⟩)]⟩),
    ("Place", .inputObject "Place" [⟨"distance", .nonNull .float, none⟩, ⟨"note", .string, none⟩]),
    ("StarKind", .enum "StarKind" ["DWARF", "GIANT"])]⟩

/-- Two and a half. -/
def distance : Double := ⟨0x4004000000000000⟩

/-- A place whose note would end the string and the selection, if it were not quoted. -/
def place : Literal :=
  .object [("distance", .float distance), ("note", .string "\"\n\x7d")]

/-- Stars that are asked for under an alias, with their arguments in another order than that of
    the declaration. -/
def starShape : OperationShape where
  kind := .query
  name := some "Near"
  parameters := ["names"]
  members := [.reusing
    { name := "stars", aliasName := some "found",
      named := [("names", .parameter "names"), ("kind", .literal (.enum "GIANT")),
        ("near", .literal place)] }
    ⟨some "starFields", "Star"⟩ [.leaf { name := "name" }]]

def starField (names : ArgumentValue) : Field :=
  ⟨"stars", some "found", "Query", .nonNull (.list (.named "Star")),
    [⟨"near", .nonNull (.named "Place"), .literal place, none⟩,
      ⟨"kind", .named "StarKind", .literal (.enum "GIANT"), none⟩,
      ⟨"names", .list (.nonNull .string), names, none⟩, ⟨"limit", .int, .default, none⟩], false⟩

def starContent : List QueryShapes.Selection :=
  [.field ⟨"name", none, "Star", .nonNull .string, [], false⟩ []]

/-- The operation of the star shape, with what stands below its field and what its names are. -/
def starOperation (subs : List QueryShapes.Selection) (names : ArgumentValue) : SelectionSet :=
  ⟨.query, some "Near", "Query", [.field (starField names) subs]⟩

def starAnalyzed : SelectionSet :=
  starOperation [.marker (some "starFields") "Star" starContent] (.parameter "names")

def starVariables : List VariableDeclaration :=
  [⟨"found_names", .list (.nonNull .string), "names"⟩]

def starCompiled : SelectionSet :=
  starOperation [.spread "starFields" "Star"] (.documentVariable "found_names")

def starFragments : List FragmentDefinition := [⟨"starFields", "Star", starContent⟩]

/-- The compiled star shape. -/
def starQuery : CompiledQuery where
  document := render true (Document.pieces starCompiled starFragments starVariables)
  operationName := some "Near"
  declarations := starVariables
  selectionSet := starCompiled
  fragments := starFragments
  key := starShape.key

theorem analyze_star : analyze starSchema starShape 512 = .ok starAnalyzed := by
  cbv

theorem extract_star : extract starAnalyzed =
    .ok (starOperation [.spread "starFields" "Star"] (.parameter "names"), starFragments) := by
  simp [extract, starAnalyzed, starOperation, starContent, countMarkers, groupKey,
    nameGroups, Group.isLifted, Group.definitionName, replaceMarkers, Lifted.name?,
    Entries.contains, Entries.insert, Entries.get?, Entries.values, starFragments]

theorem lift_star : Lifting.lift (starOperation [.spread "starFields" "Star"] (.parameter "names"))
      starFragments = (starCompiled, starFragments, starVariables) := by
  cbv

theorem synthesize_star : Document.synthesize starCompiled starFragments starVariables true =
    .ok starQuery.document := by
  simp [Document.synthesize, starCompiled, starFragments, starOperation, starContent, starField,
    Document.checkResolved, Document.unresolvedArgument?, starQuery, bind, Except.bind, pure,
    Except.pure]

theorem compile_star : compile starSchema {} starShape = .ok starQuery :=
  compile_of_steps analyze_star extract_star lift_star synthesize_star

theorem readsBack_distance : ReadsBack distance := by
  have htext : FloatFormat.document.text distance = "2.5" := by decide +kernel
  have htoken : token? "2.5".toList = some (.float false 25 (-1), []) := by decide +kernel
  have hvalue : Double.ofDecimal false 25 (-1) = distance := by decide +kernel
  refine ⟨false, 25, -1, ?_, hvalue⟩
  rw [htext, htoken]

theorem legal_starSchema : starSchema.Legal := by
  have hstring : FieldType.Built .string := .ofName (by decide : Name.isValid "String" = true)
  have hint : FieldType.Built .int := .ofName (by decide : Name.isValid "Int" = true)
  have hfloat : FieldType.Built .float := .ofName (by decide : Name.isValid "Float" = true)
  have hstar : FieldType.Built (.named "Star") := .ofName (by decide : Name.isValid "Star" = true)
  have hplace : FieldType.Built (.named "Place") :=
    .ofName (by decide : Name.isValid "Place" = true)
  have hkind : FieldType.Built (.named "StarKind") :=
    .ofName (by decide : Name.isValid "StarKind" = true)
  have harguments : ∀ d ∈ ([⟨"near", .nonNull (.named "Place"), none⟩,
      ⟨"kind", .named "StarKind", none⟩, ⟨"names", .list (.nonNull .string), none⟩,
      ⟨"limit", .int, none⟩] : List ArgumentDefinition), d.Legal := by
    simp only [List.forall_mem_cons]
    exact ⟨⟨by decide, hplace.required⟩, ⟨by decide, hkind⟩, ⟨by decide, hstring.required.list⟩,
      ⟨by decide, hint⟩, by simp⟩
  simp only [Schema.Legal, starSchema, List.forall_mem_cons, TypeDefinition.Legal]
  refine ⟨⟨by decide, ?_, by simp⟩, ⟨by decide, ?_, by simp⟩, ⟨by decide, ?_⟩, ⟨by decide, ?_⟩,
    by simp⟩
  · exact ⟨by decide, hstar.list.required, harguments⟩
  · exact ⟨by decide, hstring.required, by simp⟩
  · exact ⟨⟨by decide, hfloat.required⟩, ⟨by decide, hstring⟩, by simp⟩
  · exact ⟨by decide, by decide, by simp⟩

theorem spellable_starShape : ∀ request ∈ Member.requests starShape.members,
    request.Spellable := by
  have hplace : place.DistinctKeys ∧ Spellable place :=
    ⟨.object (by decide) (by simp [Literal.DistinctKeys.float, Literal.DistinctKeys.string]),
      .object (by simp [Spellable.float fun _ => readsBack_distance, Spellable.string])⟩
  have hkind : (Literal.enum "GIANT").DistinctKeys ∧ Spellable (.enum "GIANT") :=
    ⟨.enum _, .enum (by decide)⟩
  simp only [starShape, Member.requests, List.append_nil, List.forall_mem_cons]
  refine ⟨fun l hl => ?_, fun l hl => by simp [FieldRequest.inputs] at hl, by simp⟩
  simp only [FieldRequest.inputs, List.nil_append, List.map_cons, List.mem_cons, reduceCtorEq,
    ArgumentInput.literal.injEq, List.map_nil, List.not_mem_nil, or_false, false_or] at hl
  rcases hl with rfl | rfl
  · exact hkind
  · exact hplace

/-- The document of the star shape is read back. -/
theorem read?_compile_star :
    compile starSchema {} starShape = .ok starQuery ∧
      read? starQuery.document = some (written starQuery) := by
  have hnames : ∀ fragment ∈ Member.fragments starShape.members, fragment.name ≠ some "on" := by
    simp [starShape, Member.fragments]
  exact ⟨compile_star,
    (read?_compile legal_starSchema spellable_starShape hnames compile_star).2.2.2⟩

end QueryShapes.Executable
