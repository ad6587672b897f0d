/-
  Where the arguments of an analyzed tree come from.

  Analysis writes no spreads, and every argument of its fields is left to its
  default, bound to a parameter that the operation declares, or a constant of the
  shape that the declared type admits (`analyze_faithful`).
-/
import QueryShapes.Proofs.Analysis.Steps
import QueryShapes.Proofs.Selection.Traversal

namespace QueryShapes

open Selection

/-- The inputs that a call supplies. -/
def FieldRequest.inputs (request : FieldRequest) : List ArgumentInput :=
  request.positional ++ request.named.map Prod.snd

/-- The requested fields of a list of members at every depth. -/
def Member.requests : List Member → List FieldRequest
  | [] => []
  | .leaf request :: rest => request :: requests rest
  | .nested request ms :: rest => request :: (requests ms ++ requests rest)
  | .reusing request _ ms :: rest => request :: (requests ms ++ requests rest)
  | .spread _ ms :: rest => requests ms ++ requests rest
  | .narrowed _ ms :: rest => requests ms ++ requests rest

namespace Analysis

/-- What an argument of an analyzed field is: its default, a declared parameter, or an admitted
    constant that the call supplies. -/
def Bound (r : Resolver) (inputs : List ArgumentInput) (a : FieldArgument) : Prop :=
  a.value = .default ∨ (∃ p ∈ r.parameters, a.value = .parameter p) ∨
    ∃ l, ArgumentInput.literal l ∈ inputs ∧ a.value = .literal l ∧
      r.schema.acceptsLiteral a.type l = true

theorem Bound.mono {r : Resolver} {inputs inputs' : List ArgumentInput} {a : FieldArgument}
    (h : Bound r inputs a) (hi : ∀ i ∈ inputs, i ∈ inputs') : Bound r inputs' a :=
  h.imp_right (Or.imp_right fun ⟨l, hl, hv⟩ => ⟨l, hi _ hl, hv⟩)

/-! ## One call -/

/-- What is found in a map built by insertions is what was inserted. -/
theorem mem_of_get?_foldl_insert {α : Type} {pairs : List (String × α)} {m : Entries α}
    {key : String} {value : α}
    (h : (pairs.foldl (fun m p => Entries.insert m p.1 p.2) m).get? key = some value) :
    m.get? key = some value ∨ value ∈ pairs.map Prod.snd := by
  induction pairs generalizing m with
  | nil => exact Or.inl h
  | cons p rest ih =>
    rw [List.foldl_cons] at h
    rw [List.map_cons, List.mem_cons]
    rcases ih h with h | h
    · rw [Entries.get?_insert] at h
      split at h
      · exact Or.inr (Or.inl (Option.some.inj h).symm)
      · exact Or.inl h
    · exact Or.inr (Or.inr h)

theorem mem_of_get?_suppliedByPosition {definition : FieldDefinition}
    {positional : List ArgumentInput} {name : String} {input : ArgumentInput}
    (h : (suppliedByPosition definition positional).get? name = some input) :
    input ∈ positional := by
  rcases mem_of_get?_foldl_insert h with h | h
  · cases h
  · obtain ⟨p, hp, rfl⟩ := List.mem_map.mp h
    exact (List.of_mem_zip hp).2

theorem mem_of_get?_supplyNamed {coordinate : String} {definition : FieldDefinition}
    {supplied supplied' : Supplied} {named : List (String × ArgumentInput)}
    (h : supplyNamed coordinate definition supplied named = .ok supplied') {name : String}
    {input : ArgumentInput} (hget : supplied'.get? name = some input) :
    supplied.get? name = some input ∨ input ∈ named.map Prod.snd := by
  induction named generalizing supplied with
  | nil =>
    simp only [supplyNamed, Except.ok.injEq] at h
    exact Or.inl (h ▸ hget)
  | cons p rest ih =>
    obtain ⟨k, i⟩ := p
    rw [supplyNamed] at h
    split at h
    · cases h
    · split at h
      · cases h
      · rw [List.map_cons, List.mem_cons]
        rcases ih h with h | h
        · rw [Entries.get?_insert] at h
          split at h
          · exact Or.inr (Or.inl (Option.some.inj h).symm)
          · exact Or.inl h
        · exact Or.inr (Or.inr h)

theorem bindArgument_bound {r : Resolver} {coordinate : String} {supplied : Supplied}
    {argument : ArgumentDefinition} {a : FieldArgument}
    (h : bindArgument r.schema r.parameters coordinate supplied argument = .ok a)
    {inputs : List ArgumentInput}
    (hs : ∀ input, supplied.get? argument.name = some input → input ∈ inputs) :
    Bound r inputs a := by
  unfold bindArgument at h
  split at h
  · rename_i value hget
    split at h
    · rename_i haccepts
      cases h
      exact Or.inr (Or.inr ⟨value, hs _ hget, rfl, haccepts⟩)
    · cases h
  · rename_i name hget
    split at h
    · rename_i hmem
      cases h
      exact Or.inr (Or.inl ⟨name, List.contains_iff_mem.mp hmem, rfl⟩)
    · cases h
  · split at h
    · cases h
    · cases h
      exact Or.inl rfl

theorem bindEach_bound {r : Resolver} {coordinate : String} {supplied : Supplied}
    {arguments : List ArgumentDefinition} {bound : List FieldArgument}
    (h : bindEach r.schema r.parameters coordinate supplied arguments = .ok bound)
    {inputs : List ArgumentInput}
    (hs : ∀ name input, supplied.get? name = some input → input ∈ inputs) :
    ∀ a ∈ bound, Bound r inputs a := by
  induction arguments generalizing bound with
  | nil =>
    simp only [bindEach, Except.ok.injEq] at h
    simp [← h]
  | cons argument rest ih =>
    rw [bindEach] at h
    simp only [bind_eq_ok, pure_eq_ok] at h
    obtain ⟨first, hfirst, others, hothers, rfl⟩ := h
    intro a ha
    rcases List.mem_cons.mp ha with rfl | ha
    · exact bindArgument_bound hfirst (hs _)
    · exact ih hothers a ha

theorem bindArguments_bound {r : Resolver} {coordinate : String} {definition : FieldDefinition}
    {positional : List ArgumentInput} {named : List (String × ArgumentInput)}
    {bound : List FieldArgument}
    (h : bindArguments r.schema r.parameters coordinate definition positional named = .ok bound) :
    ∀ a ∈ bound, Bound r (positional ++ named.map Prod.snd) a := by
  unfold bindArguments at h
  split at h
  · simp [bind_eq_ok] at h
  · simp only [bind_eq_ok] at h
    obtain ⟨supplied, hsupplied, heach⟩ := h
    refine bindEach_bound heach fun name input hget => List.mem_append.mpr ?_
    exact (mem_of_get?_supplyNamed hsupplied hget).imp_left mem_of_get?_suppliedByPosition

/-! ## One field -/

namespace Resolver

theorem metaField_eq_ok {parent : String} {request : FieldRequest} {hasSelection : Bool}
    {f : Field} (h : metaField parent request hasSelection = .ok f) :
    f = Field.typename parent request.aliasName false := by
  unfold metaField at h
  dsimp only at h
  split at h
  · cases h
  · split at h
    · cases h
    · cases h
    · exact (Except.ok.inj h).symm

/-- A declared field, with the checks that it passed. -/
theorem declaredField_eq_ok {r : Resolver} {parent : String} {request : FieldRequest}
    {hasSelection isEmpty : Bool} {f : Field}
    (h : r.declaredField parent request hasSelection isEmpty = .ok f) :
    ∃ definition arguments, r.schema.field? parent request.name = some definition ∧
      bindArguments r.schema r.parameters (parent ++ "." ++ definition.name) definition
        request.positional request.named = .ok arguments ∧
      (r.schema.isComposite definition.type.innerName = true →
        hasSelection = true ∧ isEmpty = false) ∧
      (r.schema.isComposite definition.type.innerName = false → hasSelection = false) ∧
      f = ⟨definition.name, request.aliasName, parent, definition.type, arguments, false⟩ := by
  unfold declaredField at h
  split at h
  · exact absurd h throw_ne_ok
  · rename_i definition hdef
    simp only [bind_eq_ok] at h
    obtain ⟨arguments, hargs, h⟩ := h
    refine ⟨definition, arguments, hdef, hargs, ?_⟩
    cases hc : r.schema.isComposite definition.type.innerName <;> cases hasSelection <;>
      cases isEmpty <;> simp_all [map_eq_ok]

/-- Behind the check of its alias, a field is the meta field if it has its name. -/
theorem field_of_name {r : Resolver} {parent : String} {request : FieldRequest}
    {hasSelection isEmpty : Bool} {f : Field}
    (h : r.field parent request hasSelection isEmpty = .ok f) :
    (if request.name = Name.typename then metaField parent request hasSelection
      else r.declaredField parent request hasSelection isEmpty) = .ok f := by
  unfold field at h
  dsimp only at h
  split at h
  · simp only [bind_eq_ok] at h
    obtain ⟨-, -, h⟩ := h
    exact h
  · exact h

/-- A field is the meta field or a declared one. -/
theorem field_eq_ok {r : Resolver} {parent : String} {request : FieldRequest}
    {hasSelection isEmpty : Bool} {f : Field}
    (h : r.field parent request hasSelection isEmpty = .ok f) :
    (request.name = Name.typename ∧ metaField parent request hasSelection = .ok f) ∨
      r.declaredField parent request hasSelection isEmpty = .ok f := by
  have h := field_of_name h
  split at h
  · exact Or.inl ⟨‹_›, h⟩
  · exact Or.inr h

theorem field_bound {r : Resolver} {parent : String} {request : FieldRequest}
    {hasSelection isEmpty : Bool} {f : Field}
    (h : r.field parent request hasSelection isEmpty = .ok f) :
    ∀ a ∈ f.arguments, Bound r request.inputs a := by
  rcases field_eq_ok h with ⟨-, h⟩ | h
  · rw [metaField_eq_ok h]
    intro a ha
    cases ha
  · obtain ⟨definition, arguments, -, hargs, -, -, rfl⟩ := declaredField_eq_ok h
    exact bindArguments_bound hargs

end Resolver

/-! ## Whole trees -/

/-- A tree without spreads whose arguments are those of the requests. -/
structure Faithful (r : Resolver) (requests : List FieldRequest) (selections : List Selection) :
    Prop where
  noSpreads : allSpreads selections = []
  arguments : ∀ f ∈ allFields selections, ∀ a ∈ f.arguments,
    ∃ request ∈ requests, Bound r request.inputs a

namespace Faithful

variable {r : Resolver} {requests requests' : List FieldRequest}

theorem nil : Faithful r requests [] :=
  ⟨by simp [allSpreads], by simp [allFields]⟩

theorem mono {selections : List Selection} (h : Faithful r requests selections)
    (hr : ∀ q ∈ requests, q ∈ requests') : Faithful r requests' selections :=
  ⟨h.noSpreads, fun f hf a ha =>
    let ⟨request, hq, hb⟩ := h.arguments f hf a ha
    ⟨request, hr _ hq, hb⟩⟩

theorem append {as bs : List Selection} (ha : Faithful r requests as)
    (hb : Faithful r requests bs) : Faithful r requests (as ++ bs) := by
  refine ⟨?_, fun f hf => ?_⟩
  · rw [allSpreads_append, ha.noSpreads, hb.noSpreads, List.append_nil]
  · rw [allFields_append, List.mem_append] at hf
    exact hf.elim (ha.arguments f) (hb.arguments f)

theorem field {f : Field} {subs : List Selection}
    (hf : ∀ a ∈ f.arguments, ∃ request ∈ requests, Bound r request.inputs a)
    (hs : Faithful r requests subs) : Faithful r requests [.field f subs] := by
  refine ⟨?_, fun g hg => ?_⟩
  · simp [allSpreads, hs.noSpreads]
  · simp only [allFields, List.append_nil, List.mem_cons] at hg
    rcases hg with rfl | hg
    · exact hf
    · exact hs.arguments g hg

theorem inline {condition : String} {subs : List Selection} (hs : Faithful r requests subs) :
    Faithful r requests [.inline condition subs] :=
  ⟨by simp [allSpreads, hs.noSpreads], by simpa [allFields] using hs.arguments⟩

theorem marker {name : Option String} {condition : String} {subs : List Selection}
    (hs : Faithful r requests subs) : Faithful r requests [.marker name condition subs] :=
  ⟨by simp [allSpreads, hs.noSpreads], by simpa [allFields] using hs.arguments⟩

theorem withTypename {parent : String} {selections : List Selection}
    (hs : Faithful r requests selections) :
    Faithful r requests (withTypename parent selections) := by
  unfold Analysis.withTypename
  split
  · exact hs.append (field (fun a ha => by simp [Field.typename] at ha) nil)
  · exact hs

end Faithful

/-- Resolution writes the requests of its members and no spreads. -/
theorem Resolver.resolveMembers_faithful {r : Resolver} {members : List Member} {parent : String}
    {depth : Nat} {taken : List String} {selections : List Selection}
    (h : r.resolveMembers parent depth taken members = .ok selections) :
    Faithful r (Member.requests members) selections := by
  induction members using Member.listInduction generalizing parent depth taken selections with
  | nil =>
    rw [resolveMembers_nil] at h
    cases h
    exact .nil
  | leaf request rest ihr =>
    obtain ⟨s, taken', others, hs, -, ho, rfl⟩ := resolveMembers_cons h
    obtain ⟨f, hf, rfl⟩ := resolveMember_leaf hs
    have hbound := field_bound hf
    refine (Faithful.field (fun a ha => ⟨request, ?_, hbound a ha⟩) .nil).append
      ((ihr ho).mono fun q hq => ?_)
    · simp [Member.requests]
    · simp [Member.requests, hq]
  | nested request ms rest ihs ihr =>
    obtain ⟨s, taken', others, hs, -, ho, rfl⟩ := resolveMembers_cons h
    obtain ⟨f, subs, hf, -, hsubs, rfl⟩ := resolveMember_nested hs
    have hbound := field_bound hf
    refine (Faithful.field (fun a ha => ⟨request, ?_, hbound a ha⟩)
      ((ihs hsubs).mono fun q hq => ?_).withTypename).append ((ihr ho).mono fun q hq => ?_)
    · simp [Member.requests]
    · simp [Member.requests, hq]
    · simp [Member.requests, hq]
  | reusing request fragment ms rest ihs ihr =>
    obtain ⟨s, taken', others, hs, -, ho, rfl⟩ := resolveMembers_cons h
    obtain ⟨f, subs, hf, -, -, hsubs, rfl⟩ := resolveMember_reusing hs
    have hbound := field_bound hf
    refine (Faithful.field (fun a ha => ⟨request, ?_, hbound a ha⟩)
      ((ihs hsubs).mono fun q hq => ?_).withTypename.marker.withTypename).append
        ((ihr ho).mono fun q hq => ?_)
    · simp [Member.requests]
    · simp [Member.requests, hq]
    · simp [Member.requests, hq]
  | spread fragment ms rest ihs ihr =>
    obtain ⟨s, taken', others, hs, -, ho, rfl⟩ := resolveMembers_cons h
    obtain ⟨subs, -, -, hsubs, rfl⟩ := resolveMember_spread hs
    refine ((ihs hsubs).mono fun q hq => ?_).withTypename.marker.append
      ((ihr ho).mono fun q hq => ?_)
    · simp [Member.requests, hq]
    · simp [Member.requests, hq]
  | narrowed condition ms rest ihs ihr =>
    obtain ⟨s, taken', others, hs, -, ho, rfl⟩ := resolveMembers_cons h
    obtain ⟨subs, -, -, hsubs, rfl⟩ := resolveMember_narrowed hs
    refine ((ihs hsubs).mono fun q hq => ?_).withTypename.inline.append
      ((ihr ho).mono fun q hq => ?_)
    · simp [Member.requests, hq]
    · simp [Member.requests, hq]

/-- What analysis does when it succeeds. -/
theorem analyze_eq_ok {schema : Schema} {shape : OperationShape} {limit : Nat}
    {set : SelectionSet} (h : analyze schema shape limit = .ok set) :
    ∃ root subs, schema.rootType? shape.kind = some root ∧
      checkParameters [] shape.parameters = .ok () ∧
      Resolver.resolveMembers ⟨schema, shape.parameters, limit⟩ root 0 [] shape.members = .ok subs ∧
      set = ⟨shape.kind, shape.name, root, withTypename root subs⟩ ∧
      checkResponseKeys root set.selections = .ok () := by
  unfold analyze at h
  split at h
  · exact absurd h throw_ne_ok
  · rename_i root hroot
    dsimp only at h
    have hrest : ∃ subs, checkParameters [] shape.parameters = .ok () ∧
        Resolver.resolveMembers ⟨schema, shape.parameters, limit⟩ root 0 [] shape.members =
          .ok subs ∧
        checkResponseKeys root (withTypename root subs) = .ok () ∧
        set = ⟨shape.kind, shape.name, root, withTypename root subs⟩ := by
      have hm : shape.members.isEmpty = false := by
        cases hm : shape.members.isEmpty with
        | true => split at h <;> simp [hm, bind_eq_ok] at h
        | false => rfl
      rw [hm] at h
      split at h
      · simp only [bind_eq_ok, pure_eq_ok, Bool.false_eq_true, if_false] at h
        obtain ⟨-, -, ⟨⟩, hp, subs, hsubs, ⟨⟩, hk, rfl⟩ := h
        exact ⟨subs, hp, hsubs, hk, rfl⟩
      · simp only [bind_eq_ok, pure_eq_ok, Bool.false_eq_true, if_false] at h
        obtain ⟨⟨⟩, hp, subs, hsubs, ⟨⟩, hk, rfl⟩ := h
        exact ⟨subs, hp, hsubs, hk, rfl⟩
    obtain ⟨subs, hp, hsubs, hk, rfl⟩ := hrest
    exact ⟨root, subs, hroot, hp, hsubs, rfl, hk⟩

/-- An analyzed tree holds the requests of its shape and no spreads. -/
theorem analyze_faithful {schema : Schema} {shape : OperationShape} {limit : Nat}
    {set : SelectionSet} (h : analyze schema shape limit = .ok set) :
    Faithful ⟨schema, shape.parameters, limit⟩ (Member.requests shape.members)
      set.selections := by
  obtain ⟨root, subs, -, -, hsubs, rfl, -⟩ := analyze_eq_ok h
  exact (Resolver.resolveMembers_faithful hsubs).withTypename

end Analysis

end QueryShapes
