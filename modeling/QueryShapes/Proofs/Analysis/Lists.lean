/-
  The selection lists of a tree and what analysis makes them of.

  `Selection.ListIn` goes down a tree from list to list and keeps the type that
  each of them stands on; `Member.ListIn` goes down a shape.  Every selection list
  of an analyzed tree is empty, which is so below a field without a
  sub-selection, or what some list of members of the shape resolves to, perhaps
  with the meta field behind it (`analyze_lists`).  A reusable fragment that is a
  whole sub-selection stands in a list of its own.
-/
import QueryShapes.Proofs.Analysis.Typing

namespace QueryShapes

/-! ## Lists of a shape -/

namespace Member

/-- The members of the sub-selection of a member. -/
def members : Member → List Member
  | .leaf _ => []
  | .nested _ ms => ms
  | .reusing _ fragment ms => [.spread fragment ms]
  | .spread _ ms => ms
  | .narrowed _ ms => ms

/-- The lists of members of a shape. -/
inductive ListIn (whole : List Member) : List Member → Prop
  | root : ListIn whole whole
  | inner {ms : List Member} {m : Member} (h : ListIn whole ms) (hm : m ∈ ms) :
      ListIn whole m.members

theorem requests_append (as bs : List Member) :
    requests (as ++ bs) = requests as ++ requests bs := by
  induction as with
  | nil => simp [requests]
  | cons a as ih => cases a <;> simp [requests, ih]

theorem requests_members {m : Member} {ms : List Member} (hm : m ∈ ms) {q : FieldRequest}
    (hq : q ∈ requests m.members) : q ∈ requests ms := by
  obtain ⟨before, after, rfl⟩ := List.append_of_mem hm
  rw [requests_append, List.mem_append]
  refine Or.inr ?_
  cases m with
  | leaf request => simp [members, requests] at hq
  | reusing request fragment ms' =>
    have hq : q ∈ requests ms' := by simpa [members, requests] using hq
    simp [requests, hq]
  | nested request ms' =>
    have hq : q ∈ requests ms' := hq
    simp [requests, hq]
  | spread fragment ms' =>
    have hq : q ∈ requests ms' := hq
    simp [requests, hq]
  | narrowed condition ms' =>
    have hq : q ∈ requests ms' := hq
    simp [requests, hq]

/-- The requests of a list of a shape are requests of the shape. -/
theorem ListIn.requests {whole ms : List Member} (h : ListIn whole ms) {q : FieldRequest}
    (hq : q ∈ requests ms) : q ∈ Member.requests whole := by
  induction h with
  | root => exact hq
  | inner _ hm ih => exact ih (requests_members hm hq)

end Member

/-! ## Lists of a tree -/

namespace Selection

/-- The selection lists of a tree on a type, each with the type that it stands on. -/
inductive ListIn (type : String) (selections : List Selection) : String → List Selection → Prop
  | root : ListIn type selections type selections
  | field {parent : String} {list subs : List Selection} {f : Field}
      (h : ListIn type selections parent list) (hm : .field f subs ∈ list) :
      ListIn type selections f.type.innerName subs
  | inline {parent condition : String} {list subs : List Selection}
      (h : ListIn type selections parent list) (hm : .inline condition subs ∈ list) :
      ListIn type selections condition subs
  | marker {parent condition : String} {name : Option String} {list subs : List Selection}
      (h : ListIn type selections parent list) (hm : .marker name condition subs ∈ list) :
      ListIn type selections condition subs

theorem ListIn.trans {type parent parent' : String} {selections list list' : List Selection}
    (h : ListIn type selections parent list) (h' : ListIn parent list parent' list') :
    ListIn type selections parent' list' := by
  induction h' with
  | root => exact h
  | field _ hm ih => exact .field ih hm
  | inline _ hm ih => exact .inline ih hm
  | marker _ hm ih => exact .marker ih hm

/-- What stands below the rest of a list stands below the list, the rest itself apart. -/
theorem ListIn.of_tail {type parent : String} {s : Selection} {rest list : List Selection}
    (h : ListIn type rest parent list) :
    (parent = type ∧ list = rest) ∨ ListIn type (s :: rest) parent list := by
  have hmem : ∀ {x : Selection} {parent : String} {list : List Selection}, x ∈ list →
      (parent = type ∧ list = rest) ∨ ListIn type (s :: rest) parent list →
      ∃ parent' list', ListIn type (s :: rest) parent' list' ∧ x ∈ list' := by
    rintro x parent list hx (⟨rfl, rfl⟩ | h)
    · exact ⟨_, _, .root, List.mem_cons_of_mem s hx⟩
    · exact ⟨_, _, h, hx⟩
  induction h with
  | root => exact Or.inl ⟨rfl, rfl⟩
  | field _ hm ih =>
    obtain ⟨_, _, hlist, hm⟩ := hmem hm ih
    exact Or.inr (.field hlist hm)
  | inline _ hm ih =>
    obtain ⟨_, _, hlist, hm⟩ := hmem hm ih
    exact Or.inr (.inline hlist hm)
  | marker _ hm ih =>
    obtain ⟨_, _, hlist, hm⟩ := hmem hm ih
    exact Or.inr (.marker hlist hm)

theorem exists_list_cons {type : String} {s x : Selection} {rest : List Selection}
    (h : ∃ parent list, ListIn type rest parent list ∧ x ∈ list) :
    ∃ parent list, ListIn type (s :: rest) parent list ∧ x ∈ list := by
  obtain ⟨parent, list, hl, hx⟩ := h
  rcases hl.of_tail (s := s) with ⟨rfl, rfl⟩ | hl
  · exact ⟨_, _, .root, List.mem_cons_of_mem s hx⟩
  · exact ⟨_, _, hl, hx⟩

/-- Every field of a tree stands in one of its lists. -/
theorem exists_list_of_mem_allFields (type : String) {selections : List Selection} {f : Field}
    (h : f ∈ allFields selections) :
    ∃ subs parent list, ListIn type selections parent list ∧ .field f subs ∈ list := by
  induction selections using listInduction generalizing type with
  | nil => simp [allFields] at h
  | field g subs rest ihs ihr =>
    rw [allFields, List.mem_cons, List.mem_append] at h
    rcases h with rfl | h | h
    · exact ⟨subs, _, _, .root, List.mem_cons_self⟩
    · obtain ⟨subs', parent, list, hl, hm⟩ := ihs g.type.innerName h
      exact ⟨subs', parent, list, (ListIn.field .root List.mem_cons_self).trans hl, hm⟩
    · exact (ihr type h).imp fun _ => exists_list_cons
  | spread name condition rest ihr =>
    rw [allFields] at h
    exact (ihr type h).imp fun _ => exists_list_cons
  | inline condition subs rest ihs ihr =>
    rw [allFields, List.mem_append] at h
    rcases h with h | h
    · obtain ⟨subs', parent, list, hl, hm⟩ := ihs condition h
      exact ⟨subs', parent, list, (ListIn.inline .root List.mem_cons_self).trans hl, hm⟩
    · exact (ihr type h).imp fun _ => exists_list_cons
  | marker name condition subs rest ihs ihr =>
    rw [allFields, List.mem_append] at h
    rcases h with h | h
    · obtain ⟨subs', parent, list, hl, hm⟩ := ihs condition h
      exact ⟨subs', parent, list, (ListIn.marker .root List.mem_cons_self).trans hl, hm⟩
    · exact (ihr type h).imp fun _ => exists_list_cons

/-- Every marker of a tree stands in one of its lists. -/
theorem exists_list_of_mem_allMarkers (type : String) {selections : List Selection} {m : Marker}
    (h : m ∈ allMarkers selections) :
    ∃ parent list, ListIn type selections parent list ∧
      .marker m.name m.typeCondition m.selections ∈ list := by
  induction selections using listInduction generalizing type with
  | nil => simp [allMarkers] at h
  | field f subs rest ihs ihr =>
    rw [allMarkers, List.mem_append] at h
    rcases h with h | h
    · obtain ⟨parent, list, hl, hm⟩ := ihs f.type.innerName h
      exact ⟨parent, list, (ListIn.field .root List.mem_cons_self).trans hl, hm⟩
    · exact exists_list_cons (ihr type h)
  | spread name condition rest ihr =>
    rw [allMarkers] at h
    exact exists_list_cons (ihr type h)
  | inline condition subs rest ihs ihr =>
    rw [allMarkers, List.mem_append] at h
    rcases h with h | h
    · obtain ⟨parent, list, hl, hm⟩ := ihs condition h
      exact ⟨parent, list, (ListIn.inline .root List.mem_cons_self).trans hl, hm⟩
    · exact exists_list_cons (ihr type h)
  | marker name condition subs rest ihs ihr =>
    rw [allMarkers, List.mem_cons, List.mem_append] at h
    rcases h with rfl | h | h
    · exact ⟨_, _, .root, List.mem_cons_self⟩
    · obtain ⟨parent, list, hl, hm⟩ := ihs condition h
      exact ⟨parent, list, (ListIn.marker .root List.mem_cons_self).trans hl, hm⟩
    · exact exists_list_cons (ihr type h)

end Selection

namespace Analysis

open Selection

/-! ## What lists are made of -/

theorem mem_withTypename {parent : String} {selections : List Selection} {s : Selection}
    (h : s ∈ withTypename parent selections) : s ∈ selections ∨ s = addedTypename parent := by
  unfold withTypename at h
  split at h
  · exact (List.mem_append.mp h).imp_right List.mem_singleton.mp
  · exact Or.inl h

namespace Resolver

variable {r : Resolver} {parent : String} {depth : Nat} {taken : List String}

/-- Every selection of a resolved list is that of one of the members. -/
theorem exists_member_of_mem {ms : List Member} {selections : List Selection}
    (h : r.resolveMembers parent depth taken ms = .ok selections) {s : Selection}
    (hs : s ∈ selections) : ∃ m ∈ ms, r.resolveMember parent depth m = .ok s := by
  induction ms generalizing taken selections with
  | nil =>
    rw [resolveMembers_nil] at h
    cases h
    cases hs
  | cons m rest ih =>
    obtain ⟨x, taken', others, hx, -, ho, rfl⟩ := resolveMembers_cons h
    rcases List.mem_cons.mp hs with rfl | hs
    · exact ⟨m, List.mem_cons_self, hx⟩
    · obtain ⟨m', hm', hs'⟩ := ih ho hs
      exact ⟨m', List.mem_cons_of_mem m hm', hs'⟩

/-- A sub-selection is asked for only where it is not empty. -/
theorem ne_nil_of_field {request : FieldRequest} {ms : List Member} {f : Field}
    (h : r.field parent request true ms.isEmpty = .ok f) : ms ≠ [] := by
  rintro rfl
  rcases field_eq_ok h with ⟨-, hf⟩ | hf
  · cases hf
  · obtain ⟨d, arguments, -, -, htrue, hfalse, -⟩ := declaredField_eq_ok hf
    cases hc : r.schema.isComposite d.type.innerName with
    | true => cases (htrue hc).2
    | false => cases hfalse hc

/-- A list with at least one member, resolved, with the meta field behind it where it needs and
    lacks it. -/
def Lists (r : Resolver) (ms : List Member) (type : String) (list : List Selection) : Prop :=
  ms ≠ [] ∧ ∃ depth selections, r.resolveMembers type depth [] ms = .ok selections ∧
    list = withTypename type selections

/-- A fragment resolved alone makes a list. -/
theorem lists_spread {type : String} {fragment : FragmentHead} {ms : List Member}
    {subs : List Selection} (hf : r.checkFragment type fragment ms.isEmpty = .ok ())
    (hd : r.checkDepth (depth + 1) = .ok ())
    (hs : r.resolveMembers fragment.onType (depth + 1) [] ms = .ok subs) :
    r.Lists [.spread fragment ms] type (withTypename type
      [.marker fragment.name fragment.onType (withTypename fragment.onType subs)]) := by
  have hm : r.resolveMember type depth (.spread fragment ms) =
      .ok (.marker fragment.name fragment.onType (withTypename fragment.onType subs)) := by
    rw [resolveMember, hf, hd, hs]
    rfl
  refine ⟨List.cons_ne_nil _ _, depth, _, ?_, rfl⟩
  rw [resolveMembers, hm]
  show (r.resolveMembers type depth [] [] >>= fun others => _) = _
  rw [resolveMembers_nil]
  rfl

/-- The list below a field is that of its member, or there is none. -/
theorem lists_of_field {m : Member} {f : Field} {subs : List Selection}
    (h : r.resolveMember parent depth m = .ok (.field f subs)) :
    subs = [] ∨ r.Lists m.members f.type.innerName subs := by
  cases m with
  | leaf request =>
    obtain ⟨f', -, heq⟩ := resolveMember_leaf h
    cases heq
    exact Or.inl rfl
  | nested request ms =>
    obtain ⟨f', raw, hf, -, hraw, heq⟩ := resolveMember_nested h
    cases heq
    exact Or.inr ⟨ne_nil_of_field hf, depth + 1, raw, hraw, rfl⟩
  | reusing request fragment ms =>
    obtain ⟨f', raw, -, hc, hd, hraw, heq⟩ := resolveMember_reusing h
    cases heq
    exact Or.inr (lists_spread hc hd hraw)
  | spread fragment ms =>
    obtain ⟨raw, -, -, -, heq⟩ := resolveMember_spread h
    cases heq
  | narrowed condition ms =>
    obtain ⟨raw, -, -, -, heq⟩ := resolveMember_narrowed h
    cases heq

theorem lists_of_inline {m : Member} {condition : String} {subs : List Selection}
    (h : r.resolveMember parent depth m = .ok (.inline condition subs)) :
    r.Lists m.members condition subs := by
  cases m with
  | leaf request =>
    obtain ⟨f, -, heq⟩ := resolveMember_leaf h
    cases heq
  | nested request ms =>
    obtain ⟨f, raw, -, -, -, heq⟩ := resolveMember_nested h
    cases heq
  | reusing request fragment ms =>
    obtain ⟨f, raw, -, -, -, -, heq⟩ := resolveMember_reusing h
    cases heq
  | spread fragment ms =>
    obtain ⟨raw, -, -, -, heq⟩ := resolveMember_spread h
    cases heq
  | narrowed condition' ms =>
    obtain ⟨raw, hc, -, hraw, heq⟩ := resolveMember_narrowed h
    cases heq
    refine ⟨?_, depth + 1, raw, hraw, rfl⟩
    rintro rfl
    cases (checkCondition_eq_ok hc).2.1

theorem lists_of_marker {m : Member} {name : Option String} {condition : String}
    {subs : List Selection}
    (h : r.resolveMember parent depth m = .ok (.marker name condition subs)) :
    r.Lists m.members condition subs := by
  cases m with
  | leaf request =>
    obtain ⟨f, -, heq⟩ := resolveMember_leaf h
    cases heq
  | nested request ms =>
    obtain ⟨f, raw, -, -, -, heq⟩ := resolveMember_nested h
    cases heq
  | reusing request fragment ms =>
    obtain ⟨f, raw, -, -, -, -, heq⟩ := resolveMember_reusing h
    cases heq
  | spread fragment ms =>
    obtain ⟨raw, hc, -, hraw, heq⟩ := resolveMember_spread h
    cases heq
    refine ⟨?_, depth + 1, raw, hraw, rfl⟩
    rintro rfl
    cases (checkFragment_eq_ok hc).2.2.1
  | narrowed condition' ms =>
    obtain ⟨raw, -, -, -, heq⟩ := resolveMember_narrowed h
    cases heq

/-- The selections of a list are those of its members, and perhaps the meta field. -/
theorem Lists.mem {ms : List Member} {type : String} {list : List Selection}
    (h : r.Lists ms type list) {s : Selection} (hs : s ∈ list) :
    (∃ m ∈ ms, ∃ depth, r.resolveMember type depth m = .ok s) ∨ s = addedTypename type := by
  obtain ⟨-, depth, selections, hselections, rfl⟩ := h
  refine (mem_withTypename hs).imp_left fun hs => ?_
  obtain ⟨m, hm, hms⟩ := exists_member_of_mem hselections hs
  exact ⟨m, hm, depth, hms⟩

theorem field_of_resolveMember {m : Member} {f : Field} {subs : List Selection}
    (h : r.resolveMember parent depth m = .ok (.field f subs)) :
    ∃ request ∈ Member.requests [m], ∃ hasSelection isEmpty,
      r.field parent request hasSelection isEmpty = .ok f := by
  cases m with
  | leaf request =>
    obtain ⟨f', hf, heq⟩ := resolveMember_leaf h
    cases heq
    exact ⟨request, by simp [Member.requests], _, _, hf⟩
  | nested request ms =>
    obtain ⟨f', raw, hf, -, -, heq⟩ := resolveMember_nested h
    cases heq
    exact ⟨request, by simp [Member.requests], _, _, hf⟩
  | reusing request fragment ms =>
    obtain ⟨f', raw, hf, -, -, -, heq⟩ := resolveMember_reusing h
    cases heq
    exact ⟨request, by simp [Member.requests], _, _, hf⟩
  | spread fragment ms =>
    obtain ⟨raw, -, -, -, heq⟩ := resolveMember_spread h
    cases heq
  | narrowed condition ms =>
    obtain ⟨raw, -, -, -, heq⟩ := resolveMember_narrowed h
    cases heq

/-- A field of a list is what one of the requests asks for, or the meta field behind it. -/
theorem Lists.field {ms : List Member} {type : String} {list : List Selection}
    (h : r.Lists ms type list) {f : Field} {subs : List Selection} (hf : .field f subs ∈ list) :
    (∃ request ∈ Member.requests ms, ∃ hasSelection isEmpty,
      r.field type request hasSelection isEmpty = .ok f) ∨ f = Field.typename type none true := by
  rcases h.mem hf with ⟨m, hm, depth, hmember⟩ | hadded
  · obtain ⟨request, hrequest, hfield⟩ := field_of_resolveMember hmember
    obtain ⟨before, after, rfl⟩ := List.append_of_mem hm
    refine Or.inl ⟨request, ?_, hfield⟩
    rw [Member.requests_append, ← List.singleton_append, Member.requests_append, List.mem_append,
      List.mem_append]
    exact Or.inr (Or.inl hrequest)
  · cases hadded
    exact Or.inr rfl

/-- The lists below a list of members of a shape are empty or those of lists of the shape. -/
theorem lists_of_listIn {whole ms : List Member} {type : String} {selections : List Selection}
    (hw : Member.ListIn whole ms) (hr : r.Lists ms type selections) {list : List Selection}
    (h : ListIn type selections parent list) :
    list = [] ∨ ∃ ms, Member.ListIn whole ms ∧ r.Lists ms parent list := by
  induction h with
  | root => exact Or.inr ⟨ms, hw, hr⟩
  | field _ hm ih =>
    rcases ih with rfl | ⟨ms', hw', hr'⟩
    · cases hm
    · rcases hr'.mem hm with ⟨m, hms, depth, hmember⟩ | hadded
      · exact (lists_of_field hmember).imp_right fun h => ⟨m.members, hw'.inner hms, h⟩
      · cases hadded
        exact Or.inl rfl
  | inline _ hm ih =>
    rcases ih with rfl | ⟨ms', hw', hr'⟩
    · cases hm
    · rcases hr'.mem hm with ⟨m, hms, depth, hmember⟩ | hadded
      · exact Or.inr ⟨m.members, hw'.inner hms, lists_of_inline hmember⟩
      · cases hadded
  | marker _ hm ih =>
    rcases ih with rfl | ⟨ms', hw', hr'⟩
    · cases hm
    · rcases hr'.mem hm with ⟨m, hms, depth, hmember⟩ | hadded
      · exact Or.inr ⟨m.members, hw'.inner hms, lists_of_marker hmember⟩
      · cases hadded

end Resolver

/-- Every selection list of an analyzed tree is empty or what a list of members of the shape
    resolves to. -/
theorem analyze_lists {schema : Schema} {shape : OperationShape} {limit : Nat}
    {set : SelectionSet} (h : analyze schema shape limit = .ok set) {type : String}
    {list : List Selection} (hl : ListIn set.rootType set.selections type list) :
    list = [] ∨ ∃ ms, Member.ListIn shape.members ms ∧
      Resolver.Lists ⟨schema, shape.parameters, limit⟩ ms type list := by
  have hmembers := (checks_of_analyze h).2
  obtain ⟨root, subs, -, -, hsubs, rfl, -⟩ := analyze_eq_ok h
  exact Resolver.lists_of_listIn .root ⟨hmembers, 0, subs, hsubs, rfl⟩ hl

/-- Every field of an analyzed tree is what a request of the shape asks for on some type, or a meta
    field that was added. -/
theorem analyze_fields {schema : Schema} {shape : OperationShape} {limit : Nat}
    {set : SelectionSet} (h : analyze schema shape limit = .ok set) {f : Field}
    (hf : f ∈ allFields set.selections) :
    ∃ type, (∃ request ∈ Member.requests shape.members, ∃ hasSelection isEmpty,
      Resolver.field ⟨schema, shape.parameters, limit⟩ type request hasSelection isEmpty = .ok f) ∨
        f = Field.typename type none true := by
  obtain ⟨subs, type, list, hl, hmem⟩ := exists_list_of_mem_allFields set.rootType hf
  rcases analyze_lists h hl with rfl | ⟨ms, hms, hlists⟩
  · cases hmem
  · refine ⟨type, (hlists.field hmem).imp_left ?_⟩
    rintro ⟨request, hrequest, hfield⟩
    exact ⟨request, hms.requests hrequest, hfield⟩

/-- Every marker of an analyzed tree is a fragment that stands in a list of members of the shape
    and passed the checks of its position. -/
theorem analyze_markers {schema : Schema} {shape : OperationShape} {limit : Nat}
    {set : SelectionSet} (h : analyze schema shape limit = .ok set) {m : Marker}
    (hm : m ∈ allMarkers set.selections) :
    ∃ ms inner, Member.ListIn shape.members ms ∧ .spread ⟨m.name, m.typeCondition⟩ inner ∈ ms ∧
      ∃ type, Resolver.checkFragment ⟨schema, shape.parameters, limit⟩ type
        ⟨m.name, m.typeCondition⟩ inner.isEmpty = .ok () := by
  obtain ⟨name, condition, subs⟩ := m
  obtain ⟨type, list, hl, hmem⟩ := exists_list_of_mem_allMarkers set.rootType hm
  rcases analyze_lists h hl with rfl | ⟨ms, hms, hlists⟩
  · cases hmem
  rcases hlists.mem hmem with ⟨x, hx, depth, hmember⟩ | hadded
  · cases x with
    | leaf request =>
      obtain ⟨f, -, heq⟩ := Resolver.resolveMember_leaf hmember
      cases heq
    | nested request inner =>
      obtain ⟨f, raw, -, -, -, heq⟩ := Resolver.resolveMember_nested hmember
      cases heq
    | reusing request fragment inner =>
      obtain ⟨f, raw, -, -, -, -, heq⟩ := Resolver.resolveMember_reusing hmember
      cases heq
    | spread fragment inner =>
      obtain ⟨name', condition'⟩ := fragment
      obtain ⟨raw, hcheck, -, -, heq⟩ := Resolver.resolveMember_spread hmember
      cases heq
      exact ⟨ms, inner, hms, hx, type, hcheck⟩
    | narrowed condition inner =>
      obtain ⟨raw, -, -, -, heq⟩ := Resolver.resolveMember_narrowed hmember
      cases heq
  · cases hadded

end Analysis

end QueryShapes
