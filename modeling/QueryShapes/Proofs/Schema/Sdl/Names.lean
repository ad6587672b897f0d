/-
  What is read from a text is spelled as the language wants it.

  The lexer makes name tokens of names only.  `Yields` says what holds of everything
  that a reader can read from such tokens; it has a rule for each way in which readers
  are put together, and so every reader is followed the way it is written.  The
  definitions of a text are legal then (`legal_of_definitions?`): types, fields,
  arguments and enum values have names, no enum value is a reserved word, and types are
  built of names, lists and single non-null wrappers.
-/
import QueryShapes.Proofs.Executable.Numbers
import QueryShapes.Proofs.Literal.Parts
import QueryShapes.Schema.Sdl.Reader

namespace QueryShapes

theorem FieldType.required_ofName (name : String) :
    (ofName name).required = .nonNull (ofName name) := by
  unfold ofName
  repeat' split
  all_goals rfl

namespace Sdl

/-! ## Legal definitions -/

structure InputValue.Legal (v : InputValue) : Prop where
  name : Name.isValid v.name = true
  type : v.type.Built

structure FieldItem.Legal (f : FieldItem) : Prop where
  name : Name.isValid f.name = true
  type : f.type.Built
  arguments : ∀ a ∈ f.arguments, a.Legal

/-- Only a union has members, and only an object type or interface implements anything. -/
structure TypeItem.Shaped (t : TypeItem) : Prop where
  members : t.kind ≠ .union → t.members = []
  implements : t.kind ≠ .object → t.kind ≠ .interface → t.implements = []

/-- The names of a type and of its parts are names of the language, the types of its parts are built
    of names, and no enum value is a reserved word. -/
structure TypeItem.Legal (t : TypeItem) : Prop where
  shaped : t.Shaped
  name : Name.isValid t.name = true
  fields : ∀ f ∈ t.fields, f.Legal
  values : ∀ v ∈ t.values, IsEnumValue v.name
  inputs : ∀ v ∈ t.inputs, v.Legal

def Definition.Legal : Definition → Prop
  | .type item | .typeExtension item => item.Legal
  | .schema _ | .schemaExtension _ | .directive _ => True

/-! ## Tokens -/

/-- A name token has a name. -/
def Token.Named : Token → Prop
  | .name word => Name.isValid word = true
  | _ => True

theorem named_of_stringToken {cs rest : List Char} {t : Token}
    (h : stringToken cs = some (t, rest)) : t.Named := by
  unfold stringToken at h
  split at h
  · obtain ⟨_, -, heq⟩ := Option.map_eq_some_iff.mp h
    cases heq
    trivial
  · obtain ⟨_, -, heq⟩ := Option.map_eq_some_iff.mp h
    cases heq
    trivial
  · cases h

theorem named_of_numberToken {negative : Bool} {cs rest : List Char} {t : Token}
    (h : numberToken negative cs = some (t, rest)) : t.Named := by
  obtain ⟨-, fraction, _, exponent, -, -, -, rfl⟩ := Executable.numberToken_eq_some.mp h
  cases fraction <;> cases exponent <;> trivial

/-- What begins and continues as a name does is a name. -/
theorem isValid_ofList {c : Char} (rest : List Char) (hc : Name.isStart c = true) :
    Name.isValid (String.ofList (c :: rest.takeWhile Name.isContinue)) = true := by
  unfold Name.isValid
  rw [String.toList_ofList, Name.isValidChars, hc, Bool.true_and]
  exact List.all_takeWhile

theorem named_of_token? {cs rest : List Char} {t : Token} (h : token? cs = some (t, rest)) :
    t.Named := by
  unfold token? at h
  split at h
  · exact named_of_stringToken h
  · cases h
    trivial
  · cases h
    trivial
  · exact named_of_numberToken h
  · rename_i c after _ _ _ _
    split at h
    next hstart =>
      cases h
      exact isValid_ofList after hstart
    split at h
    · cases h
      trivial
    · exact named_of_numberToken h
  · cases h

theorem named_of_tokensWith {fuel : Nat} {cs : List Char} {tokens : List Token}
    (h : tokensWith fuel cs = some tokens) : ∀ t ∈ tokens, t.Named := by
  induction fuel generalizing cs tokens with
  | zero =>
    cases cs with
    | nil =>
      cases h
      exact List.forall_mem_nil _
    | cons c rest => cases h
  | succ fuel ih =>
    cases cs with
    | nil =>
      cases h
      exact List.forall_mem_nil _
    | cons c rest =>
      unfold tokensWith at h
      split at h
      · exact ih h
      split at h
      · exact ih h
      obtain ⟨⟨t, after⟩, ht, h⟩ := Option.bind_eq_some_iff.mp h
      obtain ⟨others, hothers, h⟩ := Option.bind_eq_some_iff.mp h
      cases h
      exact List.forall_mem_cons.mpr ⟨named_of_token? ht, ih hothers⟩

/-! ## Readers -/

/-- Whatever a reader reads from tokens as they come from a text has the property, and it leaves
    such tokens. -/
def Yields {α : Type} (P : α → Prop) (r : Reader α) : Prop :=
  ∀ tokens : List Token, (∀ t ∈ tokens, t.Named) → ∀ a rest, r tokens = some (a, rest) →
    P a ∧ ∀ t ∈ rest, t.Named

/-- A reader of which no more is said than that it leaves such tokens. -/
abbrev Passes {α : Type} (r : Reader α) : Prop := Yields (fun _ => True) r

namespace Yields

variable {α β : Type} {P P' : α → Prop} {Q : β → Prop} {r : Reader α}

theorem pure {a : α} (h : P a) : Yields P (pure a : Reader α) := by
  intro tokens htokens b rest hread
  cases hread
  exact ⟨h, htokens⟩

theorem done (a : α) : Passes (Pure.pure a : Reader α) := pure trivial

theorem failure : Yields P (failure : Reader α) := by
  intro tokens htokens b rest hread
  cases hread

theorem mono (hr : Yields P r) (h : ∀ a, P a → P' a) : Yields P' r := by
  intro tokens htokens a rest hread
  obtain ⟨ha, hrest⟩ := hr tokens htokens a rest hread
  exact ⟨h a ha, hrest⟩

theorem passes (hr : Yields P r) : Passes r := hr.mono fun _ _ => trivial

theorem bind {r : Reader α} {f : α → Reader β} (hr : Yields P r) (hf : ∀ a, P a → Yields Q (f a)) :
    Yields Q (r >>= f) := by
  intro tokens htokens b rest hread
  obtain ⟨⟨a, between⟩, hfirst, hsecond⟩ := Option.bind_eq_some_iff.mp hread
  obtain ⟨ha, hbetween⟩ := hr tokens htokens a between hfirst
  exact hf a ha between hbetween b rest hsecond

theorem map {f : α → β} (hr : Yields P r) (h : ∀ a, P a → Q (f a)) : Yields Q (f <$> r) := by
  rw [map_eq_pure_bind]
  exact hr.bind fun a ha => pure (h a ha)

theorem ite {c : Prop} [Decidable c] {r r' : Reader α} (hr : c → Yields P r)
    (hr' : ¬ c → Yields P r') : Yields P (if c then r else r') := by
  split
  · exact hr ‹c›
  · exact hr' ‹¬ c›

/-- A check before the rest of a reader. -/
theorem check {c : Prop} [Decidable c] {rest : Unit → Reader α} (hr : ¬ c → Yields P (rest ())) :
    Yields P (if c then Alternative.failure >>= rest else rest ()) :=
  ite (fun _ => failure.bind fun _ (h : False) => h.elim) hr

/-- A step that is only taken on a condition. -/
theorem step {c : Prop} [Decidable c] {step : Reader Unit} {rest : Unit → Reader α}
    (hstep : Passes step) (hr : Yields P (rest ())) :
    Yields P (if c then step >>= rest else rest ()) :=
  ite (fun _ => hstep.bind fun _ _ => hr) fun _ => hr

/-! ### Single tokens -/

theorem get : Yields (fun tokens => ∀ t ∈ tokens, t.Named) (get : Reader (List Token)) := by
  intro tokens htokens a rest hread
  cases hread
  exact ⟨htokens, htokens⟩

theorem pending : Yields (fun tokens => ∀ t ∈ tokens, t.Named) Reader.pending := by
  intro tokens htokens a rest hread
  cases hread
  have hnamed : ∀ t ∈ tokens.dropWhile (· == .comma), t.Named := by
    intro t ht
    exact htokens t ((List.dropWhile_sublist _).subset ht)
  exact ⟨hnamed, hnamed⟩

theorem peek : Yields (fun next => ∀ t, next = some t → t.Named) Reader.peek := by
  apply pending.bind
  intro tokens htokens
  apply pure
  intro t ht
  exact htokens t (List.mem_of_head? ht)

theorem next : Yields Token.Named Reader.next := by
  apply pending.bind
  intro tokens htokens
  cases tokens with
  | nil => exact failure
  | cons t rest =>
    intro tokens' _ a rest' hread
    cases hread
    exact List.forall_mem_cons.mp htokens

theorem sees (t : Token) : Passes (Reader.sees t) :=
  peek.bind fun _ _ => done _

theorem accept (t : Token) : Passes (Reader.accept t) := by
  apply (sees t).bind
  intro _ _
  apply ite
  · exact fun _ => next.bind fun _ _ => done _
  · exact fun _ => done _

theorem expect (t : Token) : Passes (Reader.expect t) :=
  (accept t).bind fun _ _ => ite (fun _ => failure) fun _ => done _

theorem name : Yields (fun word => Name.isValid word = true) Reader.name := by
  apply next.bind
  intro t ht
  cases t with
  | name word => exact pure ht
  | _ => exact failure

theorem description : Passes Reader.description := by
  apply peek.bind
  intro t _
  split
  · exact next.bind fun _ _ => done _
  · exact done _

/-! ### Repetitions -/

theorem manyWith (begins : Token → Bool) (hr : Yields P r) (fuel : Nat) :
    Yields (fun items => ∀ a ∈ items, P a) (Reader.manyWith begins r fuel) := by
  induction fuel with
  | zero => exact pure (List.forall_mem_nil P)
  | succ fuel ih =>
    apply peek.bind
    intro t _
    cases t with
    | none => exact pure (List.forall_mem_nil P)
    | some t =>
      apply ite
      · intro _
        exact hr.bind fun a ha => ih.bind fun items hitems =>
          pure (List.forall_mem_cons.mpr ⟨ha, hitems⟩)
      · exact fun _ => pure (List.forall_mem_nil P)

theorem many (begins : Token → Bool) (hr : Yields P r) :
    Yields (fun items => ∀ a ∈ items, P a) (Reader.many begins r) :=
  get.bind fun tokens _ => hr.manyWith begins tokens.length

theorem between (opening closing : Char) (hr : Yields P r) :
    Yields (fun items => ∀ a ∈ items, P a) (Reader.between opening closing r) :=
  (expect _).bind fun _ _ => (hr.many _).bind fun _ hitems => (expect _).bind fun _ _ => pure hitems

theorem oneOrMoreBetween (opening closing : Char) (hr : Yields P r) :
    Yields (fun items => ∀ a ∈ items, P a) (Reader.oneOrMoreBetween opening closing r) :=
  (hr.between opening closing).bind fun _ hitems =>
    check fun _ => pure hitems

theorem optionalBetween (opening closing : Char) (hr : Yields P r) :
    Yields (fun items => ∀ a ∈ items, P a) (Reader.optionalBetween opening closing r) :=
  (sees _).bind fun _ _ =>
    ite (fun _ => hr.oneOrMoreBetween opening closing) fun _ => pure (List.forall_mem_nil P)

theorem separatedBy (separator : Char) (hr : Yields P r) :
    Yields (fun items => ∀ a ∈ items, P a) (Reader.separatedBy separator r) :=
  (accept _).bind fun _ _ => hr.bind fun _ ha =>
    (((expect _).bind fun _ _ => hr).many _).bind fun _ hitems =>
      pure (List.forall_mem_cons.mpr ⟨ha, hitems⟩)

/-! ### Types and values -/

theorem typeWith (fuel : Nat) : Yields FieldType.Built (Reader.typeWith fuel) := by
  induction fuel with
  | zero => exact failure
  | succ fuel ih =>
    -- A mark is read behind a name or a list, so it never stands on a type that has one.
    have hmark : ∀ base : FieldType, base.Built → base.required = .nonNull base →
        Yields FieldType.Built (do
          if ← Reader.accept (Reader.punctuator '!') then return .nonNull base
          else return base) := by
      intro base hbase hrequired
      apply (accept _).bind
      intro _ _
      apply ite
      · exact fun _ => pure (hrequired ▸ hbase.required)
      · exact fun _ => pure hbase
    apply next.bind
    intro t ht
    split
    · exact hmark _ (.ofName ht) (FieldType.required_ofName _)
    · exact ih.bind fun item hitem => (expect _).bind fun _ _ => hmark _ (.list hitem) rfl
    · exact failure

theorem type : Yields FieldType.Built Reader.type := typeWith _

theorem entry {value : Reader Constant} (hr : Passes value) :
    Passes (Reader.entry value) :=
  name.bind fun _ _ => (accept _).bind fun _ _ =>
    ite (fun _ => hr.bind fun _ _ => done _) fun _ => done _

theorem valueWith (fuel : Nat) : Passes (Reader.valueWith fuel) := by
  induction fuel with
  | zero => exact failure
  | succ fuel ih =>
    apply next.bind
    intro t _
    split
    case h_8 => exact (ih.many _).bind fun _ _ => (expect _).bind fun _ _ => done _
    case h_9 => exact (ih.entry.many _).bind fun _ _ => (expect _).bind fun _ _ => done _
    case h_10 => exact failure
    all_goals exact done _

theorem value : Passes Reader.value := valueWith _

theorem directiveUse : Passes Reader.directiveUse :=
  (expect _).bind fun _ _ => name.bind fun _ _ =>
    (value.entry.optionalBetween '(' ')').bind fun _ _ => done _

theorem directives : Passes Reader.directives :=
  (directiveUse.many _).passes

/-! ### Parts of definitions -/

theorem inputValue : Yields InputValue.Legal Reader.inputValue := by
  apply description.bind
  intro _ _
  apply name.bind
  intro word hword
  apply (expect _).bind
  intro _ _
  apply type.bind
  intro type htype
  apply (accept _).bind
  intro _ _
  have hbehind : ∀ defaultValue, Yields InputValue.Legal (do
      return ⟨word, type, defaultValue, ← Reader.directives⟩) := fun _ =>
    directives.bind fun _ _ => pure ⟨hword, htype⟩
  apply ite
  · exact fun _ => (value.map fun _ _ => trivial).bind fun defaultValue (_ : True) =>
      hbehind defaultValue
  · exact fun _ => hbehind none

theorem argumentsDefinition : Yields (fun arguments => ∀ a ∈ arguments, a.Legal)
    Reader.argumentsDefinition := inputValue.optionalBetween '(' ')'

theorem field : Yields FieldItem.Legal Reader.field :=
  description.bind fun _ _ => name.bind fun _ hname => argumentsDefinition.bind fun _ harguments =>
    (expect _).bind fun _ _ => type.bind fun _ htype => directives.bind fun _ _ =>
      pure ⟨hname, htype, harguments⟩

theorem enumItem : Yields (fun v => IsEnumValue v.name) Reader.enumItem := by
  apply description.bind
  intro _ _
  apply name.bind
  intro word hword
  apply check
  intro hfree
  exact directives.bind fun _ _ => pure ⟨hword, fun hmem => hfree (List.contains_iff_mem.mpr hmem)⟩

theorem implements : Passes Reader.implements :=
  (accept _).bind fun _ _ =>
    ite (fun _ => (name.separatedBy '&').passes) fun _ => done _

/-! ### Definitions -/

theorem typeBody (kind : TypeKind) {word : String} (hword : Name.isValid word = true) :
    Yields TypeItem.Legal (Reader.typeBody kind word) := by
  have hnone : ∀ {α : Type} (P : α → Prop), ∀ a ∈ ([] : List α), P a := fun P =>
    List.forall_mem_nil P
  cases kind with
  | scalar =>
    exact (done _).bind fun _ _ => directives.bind fun _ _ =>
      pure ⟨⟨fun _ => rfl, fun _ _ => rfl⟩, hword, hnone _, hnone _, hnone _⟩
  | object =>
    exact implements.bind fun _ _ => directives.bind fun _ _ =>
      (field.optionalBetween '{' '}').bind fun _ hfields =>
        pure ⟨⟨fun _ => rfl, fun hkind _ => absurd rfl hkind⟩, hword, hfields, hnone _, hnone _⟩
  | interface =>
    exact implements.bind fun _ _ => directives.bind fun _ _ =>
      (field.optionalBetween '{' '}').bind fun _ hfields =>
        pure ⟨⟨fun _ => rfl, fun _ hkind => absurd rfl hkind⟩, hword, hfields, hnone _, hnone _⟩
  | union =>
    have hbehind : ∀ uses members, Yields TypeItem.Legal (Pure.pure
        { kind := .union, name := word, directives := uses, members : TypeItem }) := fun _ _ =>
      pure ⟨⟨fun hkind => absurd rfl hkind, fun _ _ => rfl⟩, hword, hnone _, hnone _, hnone _⟩
    apply (done _).bind
    intro _ _
    apply directives.bind
    intro uses _
    apply (accept _).bind
    intro _ _
    apply ite
    · exact fun _ => (name.separatedBy '|').bind fun members _ => hbehind uses members
    · exact fun _ => hbehind uses []
  | enum =>
    exact (done _).bind fun _ _ => directives.bind fun _ _ =>
      (enumItem.optionalBetween '{' '}').bind fun _ hvalues =>
        pure ⟨⟨fun _ => rfl, fun _ _ => rfl⟩, hword, hnone _, hvalues, hnone _⟩
  | input =>
    exact (done _).bind fun _ _ => directives.bind fun _ _ =>
      (inputValue.optionalBetween '{' '}').bind fun _ hinputs =>
        pure ⟨⟨fun _ => rfl, fun _ _ => rfl⟩, hword, hnone _, hnone _, hinputs⟩

theorem typeExtension (kind : TypeKind) : Yields TypeItem.Legal (Reader.typeExtension kind) := by
  apply name.bind
  intro word hword
  apply peek.bind
  intro t _
  cases t with
  | none => exact failure
  | some t => exact ite (fun _ => typeBody kind hword) fun _ => failure

theorem name? : Passes Reader.name? := by
  apply peek.bind
  intro t _
  split
  · exact next.bind fun _ _ => done _
  · exact done _

theorem root : Passes Reader.root := by
  have hbehind : ∀ kind : RootKind, Passes (do
      Reader.expect (Reader.punctuator ':')
      return (← Reader.name?).map fun type => (kind, type)) := fun _ =>
    (expect _).bind fun _ _ => name?.bind fun _ _ => done _
  apply name.bind
  intro word _
  split
  · exact hbehind .query
  · exact hbehind .mutation
  · exact hbehind .subscription
  · exact failure.bind fun kind (_ : True) => hbehind kind

theorem directiveLocation : Passes Reader.directiveLocation :=
  name.bind fun _ _ => ite (fun _ => done _) fun _ => failure

theorem directiveDefinition : Passes Reader.directiveDefinition :=
  (expect _).bind fun _ _ => name.bind fun _ _ => argumentsDefinition.bind fun _ _ =>
    (accept _).bind fun _ _ => (expect _).bind fun _ _ =>
      (directiveLocation.separatedBy '|').bind fun _ _ => done _

theorem schemaDefinition : Passes Reader.schemaDefinition :=
  directives.bind fun _ _ => (root.optionalBetween '{' '}').bind fun _ _ => done _

theorem schemaExtension : Passes Reader.schemaExtension := by
  apply directives.bind
  intro _ _
  apply (sees _).bind
  intro _ _
  apply ite
  · exact fun _ => (root.between '{' '}').bind fun _ _ => check fun _ => done _
  · exact fun _ => (done _).bind fun _ _ => check fun _ => done _

theorem noComma : Passes Reader.noComma :=
  get.bind fun _ _ => ite (fun _ => failure) fun _ => done _

theorem extensionDefinition : Yields Definition.Legal Reader.extensionDefinition := by
  apply name.bind
  intro word _
  apply ite
  · exact fun _ => schemaExtension.bind fun _ _ => pure trivial
  · intro _
    split
    · exact (typeExtension _).bind fun _ hitem => pure hitem
    · exact failure

theorem definition : Yields Definition.Legal Reader.definition := by
  apply description.bind
  intro described _
  apply step noComma
  apply name.bind
  intro word _
  split
  · exact schemaDefinition.bind fun _ _ => pure trivial
  · exact directiveDefinition.bind fun _ _ => pure trivial
  · exact check fun _ => noComma.bind fun _ _ => extensionDefinition
  · split
    · exact name.bind fun _ hname => (typeBody _ hname).bind fun _ hitem => pure hitem
    · exact failure

theorem document : Yields (fun definitions => ∀ d ∈ definitions, d.Legal) Reader.document :=
  (definition.many _).bind fun _ hdefinitions =>
    check fun _ => pure hdefinitions

end Yields

/-- The definitions of a text are legal. -/
theorem legal_of_definitions? {text : String} {definitions : List Definition}
    (h : definitions? text = some definitions) : ∀ d ∈ definitions, d.Legal := by
  obtain ⟨tokens, htokens, h⟩ := Option.bind_eq_some_iff.mp h
  obtain ⟨⟨read, rest⟩, hread, h⟩ := Option.bind_eq_some_iff.mp h
  have hlegal := (Yields.document tokens (named_of_tokensWith htokens) read rest hread).1
  dsimp only at h
  split at h
  · cases h
    exact hlegal
  · cases h

end Sdl

end QueryShapes
