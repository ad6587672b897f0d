/-
  Shapes and fragments are told from their streams.

  Two shapes with one stream are the same shape, and two fragments with one
  stream have the same type condition and the same selections
  (`streams_injective`), so that keys and fingerprints differ for different
  content unless the digest itself collides.  Lists are those that a word can
  count; with longer ones the wrapped lengths let two shapes share a stream
  (`operationShape_shortListShape`).
-/
import QueryShapes.Proofs.Digest.Stream
import QueryShapes.Selection.Fingerprint
import QueryShapes.Shape.Key

namespace QueryShapes

open Digest

variable {r s : Stream}

/-! ## Types -/

/-- A type is told from its stream. -/
theorem FieldType.recognizable (t : FieldType) : Recognizable (fun _ => True) fieldType t := by
  induction t with
  | named name =>
    intro t' _ r s h
    cases t' <;> simp_all [fieldType, number_append_inj, string_append_inj]
  | list item ih =>
    intro t' _ r s h
    cases t' with
    | list item' =>
      simp only [fieldType, List.append_assoc, List.append_cancel_left_eq] at h
      obtain ⟨rfl, rfl⟩ := ih item' trivial r s h
      exact ⟨rfl, rfl⟩
    | _ => simp [fieldType, number_append_inj] at h
  | nonNull inner ih =>
    intro t' _ r s h
    cases t' with
    | nonNull inner' =>
      simp only [fieldType, List.append_assoc, List.append_cancel_left_eq] at h
      obtain ⟨rfl, rfl⟩ := ih inner' trivial r s h
      exact ⟨rfl, rfl⟩
    | _ => simp [fieldType, number_append_inj] at h
  | string | int | float | id | boolean =>
    intro t' _ r s h
    cases t' <;> simp_all [fieldType, number_append_inj]

/-! ## Shapes -/

/-- A word can count every list of the value. -/
def ArgumentInput.Counted : ArgumentInput → Prop
  | .literal value => value.Counted
  | .parameter _ => True

/-- A word can count the arguments of the field, and every list in them. -/
structure FieldRequest.Counted (f : FieldRequest) : Prop where
  positional : Digest.Counted ArgumentInput.Counted f.positional
  named : Digest.Counted (fun p => p.2.Counted) f.named

/-- A word can count every list below the member. -/
inductive Member.Counted : Member → Prop
  | leaf {f : FieldRequest} (hf : f.Counted) : Counted (.leaf f)
  | nested {f : FieldRequest} {ms : List Member} (hf : f.Counted) (hn : Fits ms.length)
      (h : ∀ m ∈ ms, Counted m) : Counted (.nested f ms)
  | reusing {f : FieldRequest} (g : FragmentHead) {ms : List Member} (hf : f.Counted)
      (hn : Fits ms.length) (h : ∀ m ∈ ms, Counted m) : Counted (.reusing f g ms)
  | spread (g : FragmentHead) {ms : List Member} (hn : Fits ms.length)
      (h : ∀ m ∈ ms, Counted m) : Counted (.spread g ms)
  | narrowed (condition : String) {ms : List Member} (hn : Fits ms.length)
      (h : ∀ m ∈ ms, Counted m) : Counted (.narrowed condition ms)

/-- A word can count every list of the shape. -/
structure OperationShape.Counted (s : OperationShape) : Prop where
  parameters : Fits s.parameters.length
  members : Digest.Counted Member.Counted s.members

namespace Digest

theorem recognizable_string (s : String) : Recognizable (fun _ => True) string s :=
  fun _ _ _ _ h => string_append_inj.mp h

theorem option_string_append_inj {o o' : Option String}
    (h : option string o ++ r = option string o' ++ s) : o = o' ∧ r = s :=
  Recognizable.option (fun t _ => recognizable_string t) o' (fun _ _ => trivial) r s h

theorem recognizable_argumentInput {a : ArgumentInput} (ha : a.Counted) :
    Recognizable ArgumentInput.Counted argumentInput a := by
  intro a' ha' r s h
  cases a with
  | literal v =>
    cases a' with
    | literal v' =>
      simp only [argumentInput, List.append_assoc, List.append_cancel_left_eq] at h
      obtain ⟨rfl, rfl⟩ := Literal.Counted.recognizable ha v' ha' r s h
      exact ⟨rfl, rfl⟩
    | parameter name => simp [argumentInput, number_append_inj] at h
  | parameter name => cases a' <;> simp_all [argumentInput, number_append_inj, string_append_inj]

theorem recognizable_namedInput {p : String × ArgumentInput} (hp : p.2.Counted) :
    Recognizable (fun p => p.2.Counted) namedInput p := by
  intro p' hp' r s h
  simp only [namedInput, List.append_assoc, string_append_inj] at h
  obtain ⟨hvalue, hrest⟩ := recognizable_argumentInput hp p'.2 hp' r s h.2
  exact ⟨Prod.ext h.1 hvalue, hrest⟩

theorem recognizable_fieldRequest {f : FieldRequest} (hf : f.Counted) :
    Recognizable FieldRequest.Counted fieldRequest f := by
  intro f' hf' r s h
  simp only [fieldRequest, List.append_assoc, string_append_inj] at h
  obtain ⟨hname, h⟩ := h
  obtain ⟨halias, h⟩ := option_string_append_inj h
  obtain ⟨hpositional, h⟩ := Recognizable.list hf.positional.1
    (fun a ha => recognizable_argumentInput (hf.positional.2 a ha)) _ hf'.positional _ _ h
  obtain ⟨hnamed, hrest⟩ := Recognizable.list hf.named.1
    (fun p hp => recognizable_namedInput (hf.named.2 p hp)) _ hf'.named _ _ h
  cases f
  cases f'
  simp only [FieldRequest.mk.injEq]
  exact ⟨⟨hname, halias, hpositional, hnamed⟩, hrest⟩

theorem operationKind_append_inj {k k' : OperationKind}
    (h : operationKind k ++ r = operationKind k' ++ s) : k = k' ∧ r = s := by
  cases k <;> cases k' <;> simp_all [operationKind, number_append_inj]

theorem fragmentHead_append_inj {g g' : FragmentHead}
    (h : fragmentHead g ++ r = fragmentHead g' ++ s) : g = g' ∧ r = s := by
  simp only [fragmentHead, List.append_assoc] at h
  obtain ⟨hname, h⟩ := option_string_append_inj h
  obtain ⟨htype, hrest⟩ := string_append_inj.mp h
  cases g
  cases g'
  simp only [FragmentHead.mk.injEq]
  exact ⟨⟨hname, htype⟩, hrest⟩

theorem members_eq (ms : List Member) : members ms = ms.flatMap member := by
  induction ms with
  | nil => rw [members, List.flatMap_nil]
  | cons m rest ih => rw [members, List.flatMap_cons, ih]

/-- The members of a list are told from its length and the streams of the members. -/
theorem members_append_inj {ms ms' : List Member} (hn : Fits ms.length)
    (ih : ∀ m ∈ ms, Recognizable Member.Counted member m)
    (h' : Counted Member.Counted ms')
    (h : number ms.length ++ (members ms ++ r) = number ms'.length ++ (members ms' ++ s)) :
    ms = ms' ∧ r = s := by
  rw [members_eq, members_eq, number_append_inj hn h'.1] at h
  exact flatMap_append_inj ih h'.2 h.1 h.2

end Digest

/-- A member is told from its stream. -/
theorem Member.Counted.recognizable {m : Member} (hm : m.Counted) :
    Recognizable Member.Counted member m := by
  -- fields share their first word; what tells them apart comes after the request
  induction hm with
  | leaf hf =>
    intro m' hm' r s h
    cases hm' with
    | leaf hf' =>
      simp only [member, List.append_assoc, List.append_cancel_left_eq] at h
      obtain ⟨rfl, hrest⟩ := recognizable_fieldRequest hf _ hf' _ _ h
      exact ⟨rfl, List.append_cancel_left hrest⟩
    | nested hf' | reusing _ hf' =>
      simp only [member, List.append_assoc, List.append_cancel_left_eq] at h
      have h := (recognizable_fieldRequest hf _ hf' _ _ h).2
      simp [number_append_inj] at h
    | spread | narrowed => simp [member, number_append_inj] at h
  | nested hf hn _ ih =>
    intro m' hm' r s h
    cases hm' with
    | nested hf' hn' h' =>
      simp only [member, List.append_assoc, List.append_cancel_left_eq] at h
      obtain ⟨rfl, hbody⟩ := recognizable_fieldRequest hf _ hf' _ _ h
      simp only [List.append_cancel_left_eq] at hbody
      obtain ⟨rfl, rfl⟩ := members_append_inj hn ih ⟨hn', h'⟩ hbody
      exact ⟨rfl, rfl⟩
    | leaf hf' | reusing _ hf' =>
      simp only [member, List.append_assoc, List.append_cancel_left_eq] at h
      have h := (recognizable_fieldRequest hf _ hf' _ _ h).2
      simp [number_append_inj] at h
    | spread | narrowed => simp [member, number_append_inj] at h
  | reusing g hf hn _ ih =>
    intro m' hm' r s h
    cases hm' with
    | reusing g' hf' hn' h' =>
      simp only [member, List.append_assoc, List.append_cancel_left_eq] at h
      obtain ⟨rfl, hbody⟩ := recognizable_fieldRequest hf _ hf' _ _ h
      simp only [List.append_cancel_left_eq] at hbody
      obtain ⟨rfl, hlist⟩ := fragmentHead_append_inj hbody
      obtain ⟨rfl, rfl⟩ := members_append_inj hn ih ⟨hn', h'⟩ hlist
      exact ⟨rfl, rfl⟩
    | leaf hf' | nested hf' =>
      simp only [member, List.append_assoc, List.append_cancel_left_eq] at h
      have h := (recognizable_fieldRequest hf _ hf' _ _ h).2
      simp [number_append_inj] at h
    | spread | narrowed => simp [member, number_append_inj] at h
  | spread g hn _ ih =>
    intro m' hm' r s h
    cases hm' with
    | spread g' hn' h' =>
      simp only [member, List.append_assoc, List.append_cancel_left_eq] at h
      obtain ⟨rfl, hlist⟩ := fragmentHead_append_inj h
      obtain ⟨rfl, rfl⟩ := members_append_inj hn ih ⟨hn', h'⟩ hlist
      exact ⟨rfl, rfl⟩
    | _ => simp [member, number_append_inj] at h
  | narrowed condition hn _ ih =>
    intro m' hm' r s h
    cases hm' with
    | narrowed condition' hn' h' =>
      simp only [member, List.append_assoc, List.append_cancel_left_eq, string_append_inj] at h
      obtain ⟨rfl, rfl⟩ := members_append_inj hn ih ⟨hn', h'⟩ h.2
      exact ⟨congrArg (Member.narrowed · _) h.1, rfl⟩
    | _ => simp [member, number_append_inj] at h

/-- A shape is told from its stream. -/
theorem OperationShape.Counted.eq_of_stream {a b : OperationShape} (ha : a.Counted)
    (hb : b.Counted) (h : operationShape a = operationShape b) : a = b := by
  simp only [operationShape, List.append_cancel_left_eq] at h
  obtain ⟨hkind, h⟩ := operationKind_append_inj h
  obtain ⟨hname, h⟩ := option_string_append_inj h
  obtain ⟨hparameters, h⟩ := Recognizable.list ha.parameters
    (fun p _ => recognizable_string p) _ ⟨hb.parameters, fun _ _ => trivial⟩ _ _ h
  rw [← List.append_nil (Digest.members a.members),
    ← List.append_nil (Digest.members b.members)] at h
  have hmembers := (members_append_inj ha.members.1
    (fun m hm => (ha.members.2 m hm).recognizable) hb.members h).1
  cases a
  cases b
  simp only [OperationShape.mk.injEq]
  exact ⟨hkind, hname, hparameters, hmembers⟩

/-! ## Fragments -/

/-- A word can count every list of the value. -/
def ArgumentValue.Counted : ArgumentValue → Prop
  | .literal value => value.Counted
  | _ => True

/-- A word can count every list of the argument. -/
structure FieldArgument.Counted (a : FieldArgument) : Prop where
  value : a.value.Counted
  declaredDefault : ∀ l ∈ a.declaredDefault, l.Counted

/-- A word can count every list of the selection. -/
inductive Selection.Counted : Selection → Prop
  | field {f : Field} {subs : List Selection}
      (hf : Digest.Counted FieldArgument.Counted f.arguments) (hn : Fits subs.length)
      (h : ∀ sel ∈ subs, Counted sel) : Counted (.field f subs)
  | spread (name condition : String) : Counted (.spread name condition)
  | inline (condition : String) {subs : List Selection} (hn : Fits subs.length)
      (h : ∀ sel ∈ subs, Counted sel) : Counted (.inline condition subs)
  | marker (name : Option String) (condition : String) {subs : List Selection}
      (hn : Fits subs.length) (h : ∀ sel ∈ subs, Counted sel) :
      Counted (.marker name condition subs)

namespace Digest

theorem recognizable_argumentValue {v : ArgumentValue} (hv : v.Counted) :
    Recognizable ArgumentValue.Counted argumentValue v := by
  intro v' hv' r s h
  cases v with
  | literal l =>
    cases v' with
    | literal l' =>
      simp only [argumentValue, List.append_assoc, List.append_cancel_left_eq] at h
      obtain ⟨rfl, rfl⟩ := Literal.Counted.recognizable hv l' hv' r s h
      exact ⟨rfl, rfl⟩
    | _ => simp [argumentValue, number_append_inj] at h
  | parameter name | documentVariable name =>
    cases v' <;> simp_all [argumentValue, number_append_inj, string_append_inj]
  | default | unbound => cases v' <;> simp_all [argumentValue, number_append_inj]

theorem recognizable_fieldArgument {a : FieldArgument} (ha : a.Counted) :
    Recognizable FieldArgument.Counted fieldArgument a := by
  intro a' ha' r s h
  simp only [fieldArgument, List.append_assoc, string_append_inj] at h
  obtain ⟨hname, h⟩ := h
  obtain ⟨htype, h⟩ := FieldType.recognizable a.type a'.type trivial _ _ h
  obtain ⟨hvalue, h⟩ := recognizable_argumentValue ha.value _ ha'.value _ _ h
  obtain ⟨hdefault, hrest⟩ := Recognizable.option
    (fun l hl => (ha.declaredDefault l hl).recognizable) _ ha'.declaredDefault _ _ h
  cases a
  cases a'
  simp only [FieldArgument.mk.injEq]
  exact ⟨⟨hname, htype, hvalue, hdefault⟩, hrest⟩

theorem selections_eq (subs : List Selection) : selections subs = subs.flatMap selection := by
  induction subs with
  | nil => rw [selections, List.flatMap_nil]
  | cons sel rest ih => rw [selections, List.flatMap_cons, ih]

/-- The selections of a list are told from its length and the streams of the selections. -/
theorem selections_append_inj {subs subs' : List Selection} (hn : Fits subs.length)
    (ih : ∀ sel ∈ subs, Recognizable Selection.Counted selection sel)
    (h' : Counted Selection.Counted subs')
    (h : number subs.length ++ (selections subs ++ r) =
      number subs'.length ++ (selections subs' ++ s)) : subs = subs' ∧ r = s := by
  rw [selections_eq, selections_eq, number_append_inj hn h'.1] at h
  exact flatMap_append_inj ih h'.2 h.1 h.2

end Digest

/-- A selection is told from its stream. -/
theorem Selection.Counted.recognizable {sel : Selection} (hs : sel.Counted) :
    Recognizable Selection.Counted selection sel := by
  -- the first word tells the alternative, so of the other value one case is left each time
  induction hs with
  | @field f _ hf hn _ ih =>
    intro sel' hs' r s h
    cases hs' with
    | @field f' _ hf' hn' h' =>
      simp only [selection, List.append_assoc, List.append_cancel_left_eq, string_append_inj] at h
      obtain ⟨hname, h⟩ := h
      obtain ⟨halias, h⟩ := option_string_append_inj h
      obtain ⟨hparent, h⟩ := string_append_inj.mp h
      obtain ⟨htype, h⟩ := FieldType.recognizable f.type f'.type trivial _ _ h
      obtain ⟨harguments, h⟩ := Recognizable.list hf.1
        (fun a ha => recognizable_fieldArgument (hf.2 a ha)) _ hf' _ _ h
      obtain ⟨hsubs, h⟩ := selections_append_inj hn ih ⟨hn', h'⟩ h
      obtain ⟨hinjected, hrest⟩ := bool_append_inj.mp h
      cases f
      cases f'
      simp only [Selection.field.injEq, Field.mk.injEq]
      exact ⟨⟨⟨hname, halias, hparent, htype, harguments, hinjected⟩, hsubs⟩, hrest⟩
    | _ => simp [selection, number_append_inj] at h
  | spread name condition =>
    intro sel' hs' r s h
    cases hs' <;> simp_all [selection, number_append_inj, string_append_inj]
  | inline condition hn _ ih =>
    intro sel' hs' r s h
    cases hs' with
    | inline condition' hn' h' =>
      simp only [selection, List.append_assoc, List.append_cancel_left_eq, string_append_inj] at h
      obtain ⟨rfl, rfl⟩ := selections_append_inj hn ih ⟨hn', h'⟩ h.2
      exact ⟨congrArg (Selection.inline · _) h.1, rfl⟩
    | _ => simp [selection, number_append_inj] at h
  | marker name condition hn _ ih =>
    intro sel' hs' r s h
    cases hs' with
    | marker name' condition' hn' h' =>
      simp only [selection, List.append_assoc, List.append_cancel_left_eq] at h
      obtain ⟨rfl, hbody⟩ := option_string_append_inj h
      obtain ⟨rfl, hlist⟩ := string_append_inj.mp hbody
      obtain ⟨rfl, rfl⟩ := selections_append_inj hn ih ⟨hn', h'⟩ hlist
      exact ⟨rfl, rfl⟩
    | _ => simp [selection, number_append_inj] at h

/-- A fragment's type condition and its selections are told from its stream. -/
theorem eq_of_fragmentContent {condition condition' : String} {subs subs' : List Selection}
    (hs : Digest.Counted Selection.Counted subs) (hs' : Digest.Counted Selection.Counted subs')
    (h : fragmentContent condition subs = fragmentContent condition' subs') :
    condition = condition' ∧ subs = subs' := by
  rw [fragmentContent, fragmentContent, string_append_inj] at h
  obtain ⟨hcondition, h⟩ := h
  rw [← List.append_nil (selections subs), ← List.append_nil (selections subs')] at h
  exact ⟨hcondition,
    (selections_append_inj hs.1 (fun sel hsel => (hs.2 sel hsel).recognizable) hs' h).1⟩

/-! ## A review -/

/-- A review, written with the stars twice. -/
def writtenReview : Literal :=
  .ofEntries [("stars", .int 1), ("commentary", .list [.string "great"]), ("stars", .int 5)]

/-- The review as it is kept: a repeated key has its first place and its last value. -/
def keptReview : Literal :=
  .object [("stars", .int 5), ("commentary", .list [.string "great"])]

/-- A mutation that sends a review and selects its fields through a fragment. -/
def reviewShape (review : Literal) : OperationShape where
  kind := .mutation
  name := some "Review"
  parameters := ["episode"]
  members :=
    [.reusing { name := "createReview", positional := [.parameter "episode"],
                named := [("review", .literal review)] } ⟨some "reviewFields", "Review"⟩
      [.leaf { name := "stars" },
        .narrowed "Review" [.leaf { name := "commentary", aliasName := some "text" }]]]

/-- The selections of a fragment in which the review is sent, under a marker with a name. -/
def reviewContent (review : Literal) : List Selection :=
  [.marker (some "reviewFields") "Mutation"
    [.field ⟨"createReview", none, "Mutation", .named "Review",
      [⟨"review", .nonNull (.named "ReviewInput"), .literal review, none⟩], false⟩
      [.field (Field.typename "Review" none false) []]]]

theorem writtenReview_eq : writtenReview = keptReview := by
  simp [writtenReview, keptReview, Literal.ofEntries, Entries.ofPairs, Entries.insert]

theorem counted_keptReview : keptReview.Counted := by
  refine .object (by decide) fun e he => ?_
  simp only [List.mem_cons, List.not_mem_nil, or_false] at he
  rcases he with rfl | rfl
  · exact .int 5
  · exact .list (by decide) fun l hl => List.mem_singleton.mp hl ▸ .string "great"

theorem counted_reviewShape {review : Literal} (h : review.Counted) :
    (reviewShape review).Counted := by
  have hleaf : ∀ name aliasName, (Member.leaf ⟨name, aliasName, [], []⟩).Counted :=
    fun _ _ => .leaf ⟨⟨by simp, by simp⟩, ⟨by simp, by simp⟩⟩
  refine ⟨by simp [reviewShape], by simp [reviewShape], fun m hm => ?_⟩
  rw [List.mem_singleton.mp hm]
  refine .reusing _ ⟨⟨by simp, ?_⟩, ⟨by simp, ?_⟩⟩ (by simp) ?_
  · simp [ArgumentInput.Counted]
  · simp [ArgumentInput.Counted, h]
  · simp only [List.mem_cons, List.not_mem_nil, or_false]
    rintro m (rfl | rfl)
    · exact hleaf _ _
    · exact .narrowed _ (by simp) fun m hm => List.mem_singleton.mp hm ▸ hleaf _ _

theorem counted_reviewContent {review : Literal} (h : review.Counted) :
    Digest.Counted Selection.Counted (reviewContent review) := by
  refine ⟨by simp [reviewContent], fun sel hsel => ?_⟩
  rw [List.mem_singleton.mp hsel]
  refine .marker _ _ (by simp) fun sel hsel => ?_
  rw [List.mem_singleton.mp hsel]
  refine .field ⟨by simp, fun a ha => ?_⟩ (by simp) fun sel hsel => ?_
  · rw [List.mem_singleton.mp ha]
    exact ⟨h, by simp⟩
  · rw [List.mem_singleton.mp hsel]
    exact .field ⟨by simp [Field.typename], by simp [Field.typename]⟩ (by simp) (by simp)

/-! ## Keys and fingerprints -/

/-- Shapes with one stream are the same shape, and fragments with one stream have the same type
    condition and the same selections. -/
theorem streams_injective :
    (∀ a b : OperationShape, a.Counted → b.Counted → operationShape a = operationShape b → a = b) ∧
      ∀ (condition condition' : String) (subs subs' : List Selection),
        Digest.Counted Selection.Counted subs → Digest.Counted Selection.Counted subs' →
        fragmentContent condition subs = fragmentContent condition' subs' →
          condition = condition' ∧ subs = subs' :=
  ⟨fun _ _ ha hb h => ha.eq_of_stream hb h, fun _ _ _ _ hs hs' h => eq_of_fragmentContent hs hs' h⟩

/-- A review that is written in two ways is one shape and one fragment. -/
theorem streams_injective_review :
    ((reviewShape writtenReview).Counted ∧ (reviewShape keptReview).Counted ∧
        operationShape (reviewShape writtenReview) = operationShape (reviewShape keptReview) ∧
        reviewShape writtenReview = reviewShape keptReview) ∧
      Digest.Counted Selection.Counted (reviewContent writtenReview) ∧
      Digest.Counted Selection.Counted (reviewContent keptReview) ∧
      fragmentContent "Mutation" (reviewContent writtenReview) =
        fragmentContent "Mutation" (reviewContent keptReview) ∧
      reviewContent writtenReview = reviewContent keptReview := by
  have hwritten : writtenReview.Counted := writtenReview_eq ▸ counted_keptReview
  have hshape : operationShape (reviewShape writtenReview) =
      operationShape (reviewShape keptReview) := by rw [writtenReview_eq]
  have hcontent : fragmentContent "Mutation" (reviewContent writtenReview) =
      fragmentContent "Mutation" (reviewContent keptReview) := by rw [writtenReview_eq]
  have ha := counted_reviewShape hwritten
  have hb := counted_reviewShape counted_keptReview
  have hs := counted_reviewContent hwritten
  have hs' := counted_reviewContent counted_keptReview
  exact ⟨⟨ha, hb, hshape, streams_injective.1 _ _ ha hb hshape⟩, hs, hs', hcontent,
    (streams_injective.2 _ _ _ _ hs hs' hcontent).2⟩

/-! ## Lists that no word can count -/

/-- Lengths are written as words, so they wrap around. -/
theorem number_mod (n : Nat) : number (n % 0x10000000000000000) = number n := by
  have h : UInt64.ofNat (n % 0x10000000000000000) = UInt64.ofNat n := by
    rw [← UInt64.toNat_inj, UInt64.toNat_ofNat', UInt64.toNat_ofNat', Nat.mod_mod]
  rw [number, number, h]

/-- A list of `n` values and a list of twice as many, of half the stream each. -/
theorem flatMap_replicate_twice {α β : Type} {f : α → Stream} {g : β → Stream} {a : α} {b : β}
    (h : f a = g b ++ g b) (n : Nat) :
    (List.replicate n a).flatMap f = (List.replicate (2 * n) b).flatMap g := by
  induction n with
  | zero => rfl
  | succ n ih =>
    rw [Nat.mul_succ, List.replicate_succ, List.replicate_succ, List.replicate_succ,
      List.flatMap_cons, List.flatMap_cons, List.flatMap_cons, ih, h, List.append_assoc]

/-- A query for one field with the given positional arguments. -/
def positionalShape (positional : List ArgumentInput) : OperationShape where
  kind := .query
  members := [.leaf { name := "hero", positional := positional }]

/-- An empty list and `n` nulls after it. -/
def shortListShape (n : Nat) : OperationShape :=
  positionalShape (.literal (.list []) :: List.replicate n (.literal .null))

/-- A list of `2 * n` nulls. -/
def longListShape (n : Nat) : OperationShape :=
  positionalShape [.literal (.list (List.replicate (2 * n) .null))]

/-- Shapes with lists that no word can count share a stream where the lengths wrap around, as
    they do for `n = 0x10000000000000000`. -/
theorem operationShape_shortListShape {n : Nat} (hshort : (n + 1) % 0x10000000000000000 = 1)
    (hlong : 2 * n % 0x10000000000000000 = 0) :
    operationShape (shortListShape n) = operationShape (longListShape n) := by
  have hshort : number (n + 1) = number 1 := (number_mod _).symm.trans (congrArg number hshort)
  have hlong : number (2 * n) = number 0 := (number_mod _).symm.trans (congrArg number hlong)
  have hnulls : argumentInput (.literal .null) = literal .null ++ literal .null := by
    simp [argumentInput, literal]
  simp [operationShape, shortListShape, longListShape, positionalShape, members, member,
    fieldRequest, list, argumentInput, literal, literals, literals_eq, hshort, hlong,
    flatMap_replicate_twice hnulls]

end QueryShapes
