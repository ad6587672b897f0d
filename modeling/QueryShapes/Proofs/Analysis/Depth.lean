/-
  The recursion limit bounds the depth of a shape and does nothing else.

  `Member.ListAt` counts how deep the selection lists of a shape stand: a fragment
  that is a whole sub-selection lies two levels below its field, everything else
  one.  Two relations on computations follow resolution through its steps.
  `Limited` says that a computation fails where something is too deep, and reports
  the limit only there; `Continues` says that it ends as another one with a lower
  limit does, unless the limit stops that.  Both are kept by the sequence of two
  steps, so one case for each kind of member settles both
  (`limited_resolveMembers`, `continues_resolveMembers`).
-/
import QueryShapes.Proofs.Analysis.Errors
import QueryShapes.Proofs.Analysis.Steps
import QueryShapes.Proofs.Extraction.Inlining

namespace QueryShapes

/-! ## The depth of selection lists -/

namespace Member

/-- The selection list of a member, with the number of levels that it lies below the member. -/
def body? : Member → Option (Nat × List Member)
  | .leaf _ => none
  | .nested _ ms => some (1, ms)
  | .reusing _ _ ms => some (2, ms)
  | .spread _ ms => some (1, ms)
  | .narrowed _ ms => some (1, ms)

/-- The selection lists of a shape, each with its depth; the whole list has depth 0. -/
inductive ListAt : List Member → Nat → List Member → Prop
  | root {ms : List Member} : ListAt ms 0 ms
  | inner {ms inner list : List Member} {m : Member} {levels depth : Nat} (hm : m ∈ ms)
      (hb : m.body? = some (levels, inner)) (h : ListAt inner depth list) :
      ListAt ms (levels + depth) list

/-- A list at a depth holds one that is deeper than the limit, or is so itself. -/
def Exceeds (limit depth : Nat) (ms : List Member) : Prop :=
  ∃ below list, ListAt ms below list ∧ limit < depth + below

/-- The selection list of a member at a depth exceeds the limit. -/
def BodyExceeds (limit depth : Nat) (m : Member) : Prop :=
  ∃ levels inner, m.body? = some (levels, inner) ∧ Exceeds limit (depth + levels) inner

/-- Below a list at a depth there is one that is deeper than the limit. -/
def ExceedsBelow (limit depth : Nat) (ms : List Member) : Prop :=
  ∃ m ∈ ms, m.BodyExceeds limit depth

theorem exceeds_iff {limit depth : Nat} {ms : List Member} :
    Exceeds limit depth ms ↔ limit < depth ∨ ExceedsBelow limit depth ms := by
  constructor
  · rintro ⟨_, list, h, hlimit⟩
    cases h with
    | root => exact Or.inl hlimit
    | inner hm hb h =>
      rw [← Nat.add_assoc] at hlimit
      exact Or.inr ⟨_, hm, _, _, hb, _, list, h, hlimit⟩
  · rintro (hlimit | ⟨m, hm, levels, inner, hb, depth', list, h, hlimit⟩)
    · exact ⟨0, ms, .root, hlimit⟩
    · rw [Nat.add_assoc] at hlimit
      exact ⟨levels + depth', list, .inner hm hb h, hlimit⟩

theorem not_exceedsBelow_nil (limit depth : Nat) : ¬ ExceedsBelow limit depth [] := by
  rintro ⟨m, hm, -⟩
  cases hm

theorem exceedsBelow_cons {limit depth : Nat} {m : Member} {rest : List Member} :
    ExceedsBelow limit depth (m :: rest) ↔
      m.BodyExceeds limit depth ∨ ExceedsBelow limit depth rest := by
  simp only [ExceedsBelow, List.mem_cons, or_and_right, exists_or, exists_eq_left]

theorem bodyExceeds_iff {limit depth levels : Nat} {m : Member} {inner : List Member}
    (h : m.body? = some (levels, inner)) :
    m.BodyExceeds limit depth ↔ Exceeds limit (depth + levels) inner := by
  constructor
  · rintro ⟨levels', inner', h', he⟩
    rw [h] at h'
    cases h'
    exact he
  · intro he
    exact ⟨levels, inner, h, he⟩

theorem not_bodyExceeds_leaf (limit depth : Nat) (request : FieldRequest) :
    ¬ (Member.leaf request).BodyExceeds limit depth := by
  rintro ⟨_, _, hb, -⟩
  cases hb

end Member

namespace Analysis

variable {α β : Type} {limit : Nat} {p q : Prop} {x y : Except CompileError α}
  {f g : α → Except CompileError β}

/-! ## Failing at the limit -/

/-- A computation that does not succeed where something is too deep, and that reports the recursion
    limit only there. -/
structure Limited (limit : Nat) (deep : Prop) (x : Except CompileError α) : Prop where
  fails : deep → ∀ a, x ≠ .ok a
  reports : ∀ l, x = .error (.recursionLimitExceeded l) → l = limit ∧ deep

namespace Limited

theorem of_checks (h : ChecksMembers x) : Limited limit False x :=
  ⟨False.elim, fun _ hx => absurd trivial (h _ hx)⟩

theorem iff (h : Limited limit p x) (hpq : p ↔ q) : Limited limit q x :=
  ⟨fun hq => h.fails (hpq.mpr hq), fun l hx => (h.reports l hx).imp_right hpq.mp⟩

/-- Of two steps either may be the one that goes too deep. -/
theorem bind (hx : Limited limit p x) (hf : ∀ a, Limited limit q (f a)) :
    Limited limit (p ∨ q) (x >>= f) := by
  cases x with
  | error e =>
    refine ⟨fun _ _ h => (nomatch h), fun l he => ?_⟩
    cases he
    obtain ⟨hl, hp⟩ := hx.reports l rfl
    exact ⟨hl, Or.inl hp⟩
  | ok a =>
    refine ⟨fun hdeep => ?_, fun l he => ?_⟩
    · exact (hf a).fails (hdeep.resolve_left fun hp => hx.fails hp a rfl)
    · obtain ⟨hl, hq⟩ := (hf a).reports l he
      exact ⟨hl, Or.inr hq⟩

/-- A check of members before the rest. -/
theorem after (hx : ChecksMembers x) (hf : ∀ a, Limited limit q (f a)) :
    Limited limit q (x >>= f) :=
  ((of_checks hx).bind hf).iff (or_iff_right not_false)

/-- A check of members behind the rest. -/
theorem before (hx : Limited limit p x) (hf : ∀ a, ChecksMembers (f a)) :
    Limited limit p (x >>= f) :=
  (hx.bind fun a => of_checks (hf a)).iff (or_iff_left not_false)

end Limited

theorem limited_checkDepth (r : Resolver) (depth : Nat) :
    Limited r.limit (r.limit < depth) (r.checkDepth depth) := by
  unfold Resolver.checkDepth
  split
  · rename_i hlimit
    refine ⟨fun _ _ h => (nomatch h), fun l he => ?_⟩
    cases he
    exact ⟨rfl, hlimit⟩
  · rename_i hlimit
    exact ⟨fun h => absurd h hlimit, fun _ he => nomatch he⟩

/-- A list is resolved below a check of its depth. -/
theorem limited_body {r : Resolver} {type : String} {depth : Nat} {ms : List Member}
    (h : Limited r.limit (Member.ExceedsBelow r.limit depth ms)
      (r.resolveMembers type depth [] ms)) {finish : List Selection → Selection} :
    Limited r.limit (Member.Exceeds r.limit depth ms) (do
      r.checkDepth depth
      return finish (← r.resolveMembers type depth [] ms)) :=
  ((limited_checkDepth r depth).bind fun _ => h.before fun _ => .ok _).iff Member.exceeds_iff.symm

theorem limited_cons {r : Resolver} {parent : String} {depth : Nat} {m : Member}
    {rest : List Member} (hm : Limited r.limit (m.BodyExceeds r.limit depth)
      (r.resolveMember parent depth m))
    (hr : ∀ taken, Limited r.limit (Member.ExceedsBelow r.limit depth rest)
      (r.resolveMembers parent depth taken rest)) (taken : List String) :
    Limited r.limit (Member.ExceedsBelow r.limit depth (m :: rest))
      (r.resolveMembers parent depth taken (m :: rest)) := by
  rw [Resolver.resolveMembers]
  refine (hm.bind fun s => ?_).iff Member.exceedsBelow_cons.symm
  exact .after (Resolver.takeKey_checks parent taken s) fun taken' =>
    (hr taken').before fun _ => .ok _

/-- Resolution fails on what is too deep, and reports the limit only then. -/
theorem limited_resolveMembers (r : Resolver) (parent : String) (depth : Nat)
    (taken : List String) (ms : List Member) :
    Limited r.limit (Member.ExceedsBelow r.limit depth ms)
      (r.resolveMembers parent depth taken ms) := by
  induction ms using Member.listInduction generalizing parent depth taken with
  | nil =>
    rw [Resolver.resolveMembers_nil]
    exact (Limited.of_checks (.ok _)).iff
      (iff_of_false not_false (Member.not_exceedsBelow_nil _ _))
  | leaf request rest ihr =>
    refine limited_cons ?_ (ihr parent depth) taken
    rw [Resolver.resolveMember]
    refine (Limited.of_checks ?_).iff
      (iff_of_false not_false (Member.not_bodyExceeds_leaf _ _ request))
    exact Avoids.bind (r.field_checks parent _ _ _) fun _ _ => .ok _
  | nested request ms rest ihs ihr =>
    refine limited_cons ?_ (ihr parent depth) taken
    rw [Resolver.resolveMember]
    refine Limited.iff (.after (r.field_checks parent _ _ _) fun f => ?_)
      (Member.bodyExceeds_iff rfl).symm
    exact limited_body (ihs _ _ _)
  | reusing request fragment ms rest ihs ihr =>
    refine limited_cons ?_ (ihr parent depth) taken
    rw [Resolver.resolveMember]
    refine Limited.iff (.after (r.field_checks parent _ _ _) fun f => ?_)
      (Member.bodyExceeds_iff rfl).symm
    exact .after (r.checkFragment_checks _ _ _) fun _ => limited_body (ihs _ _ _)
  | spread fragment ms rest ihs ihr =>
    refine limited_cons ?_ (ihr parent depth) taken
    rw [Resolver.resolveMember]
    exact Limited.iff (.after (r.checkFragment_checks _ _ _) fun _ => limited_body (ihs _ _ _))
      (Member.bodyExceeds_iff rfl).symm
  | narrowed condition ms rest ihs ihr =>
    refine limited_cons ?_ (ihr parent depth) taken
    rw [Resolver.resolveMember]
    exact Limited.iff (.after (r.checkCondition_checks _ _ _) fun _ => limited_body (ihs _ _ _))
      (Member.bodyExceeds_iff rfl).symm

/-! ## A larger limit -/

/-- The second computation ends as the first one does, unless the first one is stopped by the
    recursion limit. -/
def Continues (x y : Except CompileError α) : Prop :=
  (∃ l, x = .error (.recursionLimitExceeded l)) ∨ y = x

namespace Continues

theorem refl (x : Except CompileError α) : Continues x x := Or.inr rfl

theorem bind (hx : Continues x y) (hf : ∀ a, Continues (f a) (g a)) :
    Continues (x >>= f) (y >>= g) := by
  rcases hx with ⟨l, rfl⟩ | rfl
  · exact Or.inl ⟨l, rfl⟩
  · cases y with
    | error e => exact Or.inr rfl
    | ok a => exact hf a

/-- The first step does not depend on the limit. -/
theorem after (x : Except CompileError α) (hf : ∀ a, Continues (f a) (g a)) :
    Continues (x >>= f) (x >>= g) :=
  (refl x).bind hf

end Continues

/-- The resolver with another limit. -/
def Resolver.withLimit (r : Resolver) (limit : Nat) : Resolver := { r with limit := limit }

section Larger

variable {r : Resolver} {larger : Nat} (hl : r.limit ≤ larger)

include hl

theorem continues_checkDepth (depth : Nat) :
    Continues (r.checkDepth depth) ((r.withLimit larger).checkDepth depth) := by
  unfold Resolver.checkDepth
  by_cases hdepth : r.limit < depth
  · exact Or.inl ⟨r.limit, if_pos hdepth⟩
  · refine Or.inr ?_
    rw [if_neg hdepth, if_neg]
    show ¬ larger < depth
    omega

theorem continues_body {type : String} {depth : Nat} {ms : List Member}
    (h : Continues (r.resolveMembers type depth [] ms)
      ((r.withLimit larger).resolveMembers type depth [] ms))
    {finish : List Selection → Selection} :
    Continues
      (do r.checkDepth depth; return finish (← r.resolveMembers type depth [] ms))
      (do
        (r.withLimit larger).checkDepth depth
        return finish (← (r.withLimit larger).resolveMembers type depth [] ms)) :=
  (continues_checkDepth hl depth).bind fun _ => h.bind fun _ => .refl _

omit hl in
theorem continues_cons {parent : String} {depth : Nat} {m : Member} {rest : List Member}
    (hm : Continues (r.resolveMember parent depth m)
      ((r.withLimit larger).resolveMember parent depth m))
    (hr : ∀ taken, Continues (r.resolveMembers parent depth taken rest)
      ((r.withLimit larger).resolveMembers parent depth taken rest)) (taken : List String) :
    Continues (r.resolveMembers parent depth taken (m :: rest))
      ((r.withLimit larger).resolveMembers parent depth taken (m :: rest)) := by
  rw [Resolver.resolveMembers, Resolver.resolveMembers]
  exact hm.bind fun s => .after _ fun taken' => (hr taken').bind fun _ => .refl _

/-- With a larger limit resolution ends the same way, unless the limit stopped it. -/
theorem continues_resolveMembers (parent : String) (depth : Nat) (taken : List String)
    (ms : List Member) :
    Continues (r.resolveMembers parent depth taken ms)
      ((r.withLimit larger).resolveMembers parent depth taken ms) := by
  induction ms using Member.listInduction generalizing parent depth taken with
  | nil =>
    rw [Resolver.resolveMembers_nil, Resolver.resolveMembers_nil]
    exact .refl _
  | leaf request rest ihr =>
    refine continues_cons ?_ (ihr parent depth) taken
    rw [Resolver.resolveMember, Resolver.resolveMember]
    exact .refl _
  | nested request ms rest ihs ihr =>
    refine continues_cons ?_ (ihr parent depth) taken
    rw [Resolver.resolveMember, Resolver.resolveMember]
    exact .after (r.field parent request true ms.isEmpty) fun f => continues_body hl (ihs _ _ _)
  | reusing request fragment ms rest ihs ihr =>
    refine continues_cons ?_ (ihr parent depth) taken
    rw [Resolver.resolveMember, Resolver.resolveMember]
    refine .after (r.field parent request true false) fun f => ?_
    exact .after (r.checkFragment _ fragment ms.isEmpty) fun _ => continues_body hl (ihs _ _ _)
  | spread fragment ms rest ihs ihr =>
    refine continues_cons ?_ (ihr parent depth) taken
    rw [Resolver.resolveMember, Resolver.resolveMember]
    exact .after (r.checkFragment parent fragment ms.isEmpty) fun _ =>
      continues_body hl (ihs _ _ _)
  | narrowed condition ms rest ihs ihr =>
    refine continues_cons ?_ (ihr parent depth) taken
    rw [Resolver.resolveMember, Resolver.resolveMember]
    exact .after (r.checkCondition parent condition ms.isEmpty) fun _ =>
      continues_body hl (ihs _ _ _)

end Larger

/-! ## Whole operations -/

/-- A shape with a selection list deeper than the limit is refused; the limit is reported only of
    such a shape, and the reported one is the given one; and whatever else comes out, a selection
    set or an error, comes out under every larger limit. -/
theorem analyze_limit (schema : Schema) (shape : OperationShape) (limit : Nat) :
    ((∃ depth list, Member.ListAt shape.members depth list ∧ limit < depth) →
      ∀ set, analyze schema shape limit ≠ .ok set) ∧
    (∀ l, analyze schema shape limit = .error (.recursionLimitExceeded l) →
      l = limit ∧ ∃ depth list, Member.ListAt shape.members depth list ∧ limit < depth) ∧
    ((∀ l, analyze schema shape limit ≠ .error (.recursionLimitExceeded l)) →
      ∀ larger, limit ≤ larger → analyze schema shape larger = analyze schema shape limit) := by
  have hdeep : Member.ExceedsBelow limit 0 shape.members ↔
      ∃ depth list, Member.ListAt shape.members depth list ∧ limit < depth := by
    have hexceeds : Member.Exceeds limit 0 shape.members ↔
        limit < 0 ∨ Member.ExceedsBelow limit 0 shape.members := Member.exceeds_iff
    rw [or_iff_right (Nat.not_lt_zero limit)] at hexceeds
    simpa only [Member.Exceeds, Nat.zero_add] using hexceeds.symm
  have hlimited : Limited limit (Member.ExceedsBelow limit 0 shape.members)
      (analyze schema shape limit) := by
    rw [analyze_eq]
    refine .after (rootOf_checks schema shape) fun root => ?_
    exact (limited_resolveMembers ⟨schema, shape.parameters, limit⟩ root 0 [] shape.members).before
      fun members => merged_checks shape root members
  refine ⟨(hlimited.iff hdeep).fails, (hlimited.iff hdeep).reports, fun hother larger hl => ?_⟩
  have hcontinues : Continues (analyze schema shape limit) (analyze schema shape larger) := by
    rw [analyze_eq, analyze_eq]
    refine .after _ fun root => ?_
    have hmembers := continues_resolveMembers (r := ⟨schema, shape.parameters, limit⟩) hl root 0 []
      shape.members
    exact hmembers.bind fun _ => .refl _
  rcases hcontinues with ⟨l, h⟩ | h
  · exact absurd h (hother l)
  · exact h

/-- The fragment below the hero lies two levels deep. -/
theorem analyze_limit_hero :
    analyze Extraction.heroSchema Extraction.heroShape 1 = .error (.recursionLimitExceeded 1) ∧
      analyze Extraction.heroSchema Extraction.heroShape 512 =
        analyze Extraction.heroSchema Extraction.heroShape 3 := by
  have hok : analyze Extraction.heroSchema Extraction.heroShape 3 =
      .ok Extraction.heroAnalyzed := by
    cbv
  refine ⟨by cbv, (analyze_limit _ _ 3).2.2 (fun l h => ?_) 512 (by decide)⟩
  rw [hok] at h
  cases h

end Analysis

end QueryShapes
