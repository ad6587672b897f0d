/-
  Subtyping by a depth-first search that stops at the first find.

  `searchFrom` goes down the `implements` lists of a type one interface after the
  other, with one list of visited names for all its branches, and ends as soon as it
  comes to the abstract type or to a member of it.  A search that finds nothing has
  visited whatever the names it has visited lead to (`Exhausted`), so a branch that
  ends at a visited name has missed nothing.  Hence the search finds a type below
  the abstract type exactly if there is a chain of links to it, and tells the same as
  the look-up among all supertypes (`found_searchFrom`).
-/
import QueryShapes.Proofs.Schema.Subtyping

namespace QueryShapes.Schema

variable {s : Schema} {abstractType name x : String} {seen visited further : List String}

/-! ## The search -/

/-- What a search tells that began with some names visited: whether it came to its goal, and the
    names that are visited then. -/
structure Search (seen : List String) where
  found : Bool
  visited : List String
  keeps : seen ⊆ visited

theorem mem_keys_of_objectType? {t : ObjectType}
    (h : (s.type? name).bind TypeDefinition.objectType? = some t) :
    name ∈ s.implementsGraph.nodes := by
  show name ∈ s.types.keys
  obtain ⟨d, hd, -⟩ := Option.bind_eq_some_iff.mp h
  rw [Entries.mem_keys_iff]
  exact Option.isSome_iff_exists.mpr ⟨d, hd⟩

mutual

/-- The search from one type. -/
def searchFrom (s : Schema) (abstractType : String) (seen : List String) (name : String) :
    Search seen :=
  if name ∈ seen then ⟨false, seen, List.Subset.refl seen⟩
  else if (s.unionMembers abstractType).contains name then
    ⟨true, name :: seen, List.subset_cons_self name seen⟩
  else
    match _ : (s.type? name).bind TypeDefinition.objectType? with
    | some t =>
      let inner := searchAmong s abstractType (name :: seen) t.implements
      ⟨inner.found, inner.visited, List.Subset.trans (List.subset_cons_self name seen) inner.keeps⟩
    | none => ⟨false, name :: seen, List.subset_cons_self name seen⟩
termination_by (s.implementsGraph.unseen seen, 0)
decreasing_by
  rename_i hseen _ ht
  exact Prod.Lex.left _ _ (s.implementsGraph.unseen_cons_lt (mem_keys_of_objectType? ht) hseen)

/-- The search from interfaces one after the other, until one is the abstract type or leads to
    it. -/
def searchAmong (s : Schema) (abstractType : String) (seen : List String) :
    List String → Search seen
  | [] => ⟨false, seen, List.Subset.refl seen⟩
  | interface :: rest =>
    if interface = abstractType then ⟨true, seen, List.Subset.refl seen⟩
    else
      let first := searchFrom s abstractType seen interface
      if first.found then first
      else
        let others := searchAmong s abstractType first.visited rest
        ⟨others.found, others.visited, List.Subset.trans first.keeps others.keeps⟩
termination_by pending => (s.implementsGraph.unseen seen, pending.length)
decreasing_by
  · exact Prod.Lex.right _ (Nat.succ_pos _)
  · rcases Nat.lt_or_eq_of_le (s.implementsGraph.unseen_mono first.keeps) with h | h
    · exact Prod.Lex.left _ _ h
    · rw [h]
      exact Prod.Lex.right _ (Nat.lt_succ_self _)

end

/-! ## A search that finds nothing -/

/-- A type that a chain of links leads to: it is a member of the abstract type, or lists it. -/
def LeadsTo (s : Schema) (name abstractType : String) : Prop :=
  ∃ last, Relation.ReflTransGen s.Implements name last ∧
    (s.HasMember abstractType last ∨ s.Implements last abstractType)

theorem isSubtype_iff_leadsTo : s.isSubtype abstractType name = true ↔
    s.LeadsTo name abstractType := by
  unfold LeadsTo
  rw [isSubtype_iff, Relation.TransGen.tail'_iff]
  simp only [and_or_left, exists_or]
  exact or_comm

/-- The names visited since are no members of the abstract type and do not list it, and all that
    they list is visited. -/
def Exhausted (s : Schema) (abstractType : String) (seen visited : List String) : Prop :=
  ∀ x ∈ visited, x ∉ seen → ¬ s.HasMember abstractType x ∧
    ∀ y, s.Implements x y → y ≠ abstractType ∧ y ∈ visited

namespace Exhausted

theorem refl (s : Schema) (abstractType : String) (seen : List String) :
    s.Exhausted abstractType seen seen := by
  intro x hx hnew
  exact absurd hx hnew

theorem trans (h : s.Exhausted abstractType seen visited)
    (h' : s.Exhausted abstractType visited further) (hkeeps : visited ⊆ further) :
    s.Exhausted abstractType seen further := by
  intro x hx hnew
  by_cases hvisited : x ∈ visited
  · obtain ⟨hmember, hlinks⟩ := h x hvisited hnew
    refine ⟨hmember, ?_⟩
    intro y hy
    exact ⟨(hlinks y hy).1, hkeeps (hlinks y hy).2⟩
  · exact h' x hx hvisited

/-- A name is visited too when nothing is found among what it lists. -/
theorem visit (h : s.Exhausted abstractType (name :: seen) visited)
    (hmember : ¬ s.HasMember abstractType name)
    (hlinks : ∀ y, s.Implements name y → y ≠ abstractType ∧ y ∈ visited) :
    s.Exhausted abstractType seen visited := by
  intro x hx hnew
  by_cases hname : x = name
  · subst hname
    exact ⟨hmember, hlinks⟩
  · apply h x hx
    intro hmem
    rcases List.mem_cons.mp hmem with heq | hseen
    · exact hname heq
    · exact hnew hseen

/-- Every name that a visited one leads to is visited. -/
theorem mem_of_chain (h : s.Exhausted abstractType [] visited) (hname : name ∈ visited)
    (hchain : Relation.ReflTransGen s.Implements name x) : x ∈ visited := by
  induction hchain with
  | refl => exact hname
  | tail _ hlink ih => exact ((h _ ih List.not_mem_nil).2 _ hlink).2

theorem not_leadsTo (h : s.Exhausted abstractType [] visited) (hname : name ∈ visited) :
    ¬ s.LeadsTo name abstractType := by
  intro ⟨last, hchain, hlast⟩
  obtain ⟨hmember, hlinks⟩ := h last (h.mem_of_chain hname hchain) List.not_mem_nil
  rcases hlast with hlast | hlast
  · exact hmember hlast
  · exact (hlinks abstractType hlast).1 rfl

end Exhausted

/-! ## What a search tells -/

/-- A search from a type finds a chain to the abstract type, or has visited the type and all it
    leads to. -/
structure Tells (s : Schema) (abstractType : String) {seen : List String} (name : String)
    (r : Search seen) : Prop where
  leadsTo : r.found = true → s.LeadsTo name abstractType
  visits : ¬ r.found = true → name ∈ r.visited ∧ s.Exhausted abstractType seen r.visited

/-- A search among interfaces finds one that is the abstract type or leads to it, or has visited
    them and all they lead to. -/
structure TellsAmong (s : Schema) (abstractType : String) {seen : List String}
    (pending : List String) (r : Search seen) : Prop where
  leadsTo : r.found = true → ∃ i ∈ pending, i = abstractType ∨ s.LeadsTo i abstractType
  visits : ¬ r.found = true → (∀ i ∈ pending, i ≠ abstractType ∧ i ∈ r.visited) ∧
    s.Exhausted abstractType seen r.visited

theorem LeadsTo.of_member (hmember : s.HasMember abstractType name) :
    s.LeadsTo name abstractType :=
  ⟨name, Relation.ReflTransGen.refl, Or.inl hmember⟩

theorem LeadsTo.of_link (hlink : s.Implements name x)
    (h : x = abstractType ∨ s.LeadsTo x abstractType) : s.LeadsTo name abstractType := by
  rcases h with rfl | ⟨last, hchain, hlast⟩
  · exact ⟨name, Relation.ReflTransGen.refl, Or.inr hlink⟩
  · exact ⟨last, Relation.ReflTransGen.head hlink hchain, hlast⟩

theorem contains_unionMembers_iff :
    (s.unionMembers abstractType).contains name = true ↔ s.HasMember abstractType name := by
  rw [List.contains_iff_mem, mem_unionMembers_iff]

theorem not_implements_of_objectType?
    (ht : (s.type? name).bind TypeDefinition.objectType? = none) : ¬ s.Implements name x := by
  rw [← mem_implementedBy_iff, implementedBy, ht]
  exact List.not_mem_nil

/-- A type that is no member tells what its interfaces tell. -/
theorem TellsAmong.tells {t : ObjectType} {inner : Search (name :: seen)}
    (h : s.TellsAmong abstractType t.implements inner)
    (hmember : ¬ s.HasMember abstractType name)
    (ht : (s.type? name).bind TypeDefinition.objectType? = some t)
    (hkeeps : seen ⊆ inner.visited) :
    s.Tells abstractType name (⟨inner.found, inner.visited, hkeeps⟩ : Search seen) where
  leadsTo hfound := by
    obtain ⟨i, hi, hto⟩ := h.leadsTo hfound
    exact LeadsTo.of_link ((implements_iff_of_objectType? ht).mpr hi) hto
  visits hmissed := by
    obtain ⟨hall, hex⟩ := h.visits hmissed
    refine ⟨inner.keeps List.mem_cons_self, hex.visit hmember ?_⟩
    intro y hy
    exact hall y ((implements_iff_of_objectType? ht).mp hy)

/-- What the two searches tell, whatever names they begin with. -/
theorem search_tells (s : Schema) (abstractType : String) :
    (∀ seen name, s.Tells abstractType name (s.searchFrom abstractType seen name)) ∧
      ∀ seen pending,
        s.TellsAmong abstractType pending (s.searchAmong abstractType seen pending) := by
  -- The induction is on the searches.  One that finds nothing leaves nothing to visit, so the one
  -- after it may rely on all names visited before.
  apply searchFrom.mutual_induct s abstractType
    (fun seen name => s.Tells abstractType name (s.searchFrom abstractType seen name))
    (fun seen pending =>
      s.TellsAmong abstractType pending (s.searchAmong abstractType seen pending))
  case case1 =>
    intro seen name hseen
    rw [searchFrom, if_pos hseen]
    exact ⟨nofun, fun _ => ⟨hseen, Exhausted.refl s abstractType seen⟩⟩
  case case2 =>
    intro seen name hseen hmember
    rw [searchFrom, if_neg hseen, if_pos hmember]
    exact ⟨fun _ => LeadsTo.of_member (contains_unionMembers_iff.mp hmember),
      fun hmissed => absurd rfl hmissed⟩
  case case3 =>
    intro seen name hseen hmember t ht htells
    rw [searchFrom, if_neg hseen, if_neg hmember]
    split
    next t' ht' =>
      obtain rfl : t = t' := Option.some.inj (ht.symm.trans ht')
      exact htells.tells (fun h => hmember (contains_unionMembers_iff.mpr h)) ht _
    next hnone => exact absurd (ht.symm.trans hnone) (Option.some_ne_none t)
  case case4 =>
    intro seen name hseen hmember hnone
    rw [searchFrom, if_neg hseen, if_neg hmember]
    split
    next t ht => exact absurd (ht.symm.trans hnone) (Option.some_ne_none t)
    next =>
      refine ⟨nofun, fun _ => ⟨List.mem_cons_self, ?_⟩⟩
      apply (Exhausted.refl s abstractType (name :: seen)).visit
      · exact fun h => hmember (contains_unionMembers_iff.mpr h)
      · exact fun y hy => absurd hy (not_implements_of_objectType? hnone)
  case case5 =>
    intro seen
    rw [searchAmong]
    exact ⟨nofun, fun _ => ⟨nofun, Exhausted.refl s abstractType seen⟩⟩
  case case6 =>
    intro seen rest
    rw [searchAmong, if_pos rfl]
    exact ⟨fun _ => ⟨abstractType, List.mem_cons_self, Or.inl rfl⟩,
      fun hmissed => absurd rfl hmissed⟩
  case case7 =>
    intro seen interface rest hne first hfound htells
    rw [searchAmong, if_neg hne, if_pos hfound]
    exact ⟨fun h => ⟨interface, List.mem_cons_self, Or.inr (htells.leadsTo h)⟩,
      fun hmissed => absurd hfound hmissed⟩
  case case8 =>
    intro seen interface rest hne first hmissed htells _ hrest
    rw [searchAmong, if_neg hne, if_neg hmissed]
    obtain ⟨hvisited, hex⟩ := htells.visits hmissed
    constructor
    · intro hfound
      obtain ⟨i, hi, hto⟩ := hrest.leadsTo hfound
      exact ⟨i, List.mem_cons_of_mem interface hi, hto⟩
    · intro hmissed'
      obtain ⟨hall, hex'⟩ := hrest.visits hmissed'
      refine ⟨?_, hex.trans hex' (s.searchAmong abstractType _ rest).keeps⟩
      intro i hi
      rcases List.mem_cons.mp hi with rfl | hi
      · exact ⟨hne, (s.searchAmong abstractType _ rest).keeps hvisited⟩
      · exact hall i hi

/-- The search from a type finds it below the abstract type exactly if the look-up among all its
    supertypes does. -/
theorem found_searchFrom (s : Schema) (abstractType name : String) :
    (s.searchFrom abstractType [] name).found = s.isSubtype abstractType name := by
  have htells := (search_tells s abstractType).1 [] name
  rw [Bool.eq_iff_iff, isSubtype_iff_leadsTo]
  constructor
  · exact htells.leadsTo
  · intro hto
    by_contra hmissed
    obtain ⟨hvisited, hex⟩ := htells.visits hmissed
    exact hex.not_leadsTo hvisited hto

end QueryShapes.Schema
