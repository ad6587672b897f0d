/-
  Reachability in a finite graph of names.

  The nodes are given as a list, and `next` lists the successors of a node.
  Names that are no nodes can be reached but lead nowhere.
-/

namespace QueryShapes

/-- A graph of names. -/
structure NameGraph where
  nodes : List String
  next : String → List String

namespace NameGraph

/-- How many nodes a search has not seen yet. -/
def unseen (g : NameGraph) (seen : List String) : Nat := g.nodes.countP (!seen.contains ·)

theorem unseen_mono (g : NameGraph) {seen visited : List String} (h : seen ⊆ visited) :
    g.unseen visited ≤ g.unseen seen := by
  unfold unseen
  refine List.countP_mono_left fun a _ hnew => ?_
  simp only [Bool.not_eq_true', List.contains_eq_mem, decide_eq_false_iff_not] at hnew ⊢
  exact fun hseen => hnew (h hseen)

theorem unseen_cons_lt (g : NameGraph) {seen : List String} {t : String}
    (hk : t ∈ g.nodes) (hs : t ∉ seen) : g.unseen (t :: seen) < g.unseen seen := by
  unfold unseen
  obtain ⟨before, after, hsplit⟩ := List.append_of_mem hk
  have mono (l : List String) : l.countP (!(t :: seen).contains ·) ≤ l.countP (!seen.contains ·) :=
    List.countP_mono_left fun a _ h => by simp_all
  have hnew : (!(t :: seen).contains t) = false := by simp
  have hold : (!seen.contains t) = true := by simp [hs]
  have hb := mono before
  have ha := mono after
  rw [hsplit]
  simp only [List.countP_append, List.countP_cons, hnew, hold]
  simp only [Bool.false_eq_true, if_false, if_true]
  omega

/-- All names reachable from the pending ones, together with the seen ones; the successors of a
    name are looked up once. -/
def explore (g : NameGraph) (seen : List String) : List String → List String
  | [] => seen
  | t :: pending =>
    if t ∈ seen then g.explore seen pending
    else if t ∈ g.nodes then g.explore (t :: seen) (g.next t ++ pending)
    else g.explore (t :: seen) pending
termination_by pending => (g.unseen seen, pending.length)
decreasing_by
  · exact Prod.Lex.right _ (by simp)
  · rename_i hs hn
    exact Prod.Lex.left _ _ (g.unseen_cons_lt hn hs)
  · rcases Nat.lt_or_eq_of_le (g.unseen_mono (List.subset_cons_self t seen)) with h | h
    · exact Prod.Lex.left _ _ h
    · rw [h]
      exact Prod.Lex.right _ (by simp)

/-- The names that a path of one or more steps leads to. -/
def above (g : NameGraph) (name : String) : List String :=
  if name ∈ g.nodes then g.explore [] (g.next name) else []

end NameGraph

end QueryShapes
