/-
  What one step of a run changes.

  A step hands a caller a ticket, ends the flight of a first caller, or moves on what
  another caller has in hand; there is nothing else that it can do
  (`change_step`).  What holds of all runs is shown by the cases of `Change`.
-/
import Mathlib.Data.List.GetD
import QueryShapes.Flight.Run

namespace QueryShapes

variable {K V E : Type}

/-! ## Look-up by key -/

theorem lookup_cons_eq_ite {α β : Type} [DecidableEq α] (a k : α) (b : β) (l : List (α × β)) :
    ((k, b) :: l).lookup a = if a = k then some b else l.lookup a := by
  rw [List.lookup_cons]
  by_cases h : a = k
  · rw [if_pos h, beq_iff_eq.mpr h]
  · rw [if_neg h, beq_eq_false_iff_ne.mpr h]

theorem lookup_filter_ne {α β : Type} [DecidableEq α] {a k : α} (h : a ≠ k)
    (l : List (α × β)) : (l.filter (·.1 ≠ k)).lookup a = l.lookup a := by
  induction l with
  | nil => rfl
  | cons p l ih =>
    obtain ⟨k', b⟩ := p
    by_cases hk : k' = k
    · rw [List.filter_cons_of_neg (by simpa using hk), ih, lookup_cons_eq_ite,
        if_neg (hk ▸ h)]
    · rw [List.filter_cons_of_pos (by simpa using hk), lookup_cons_eq_ite, lookup_cons_eq_ite, ih]

/-- Where no key repeats, look-up finds exactly the pairs. -/
theorem lookup_eq_some_iff_mem {α β : Type} [DecidableEq α] {a : α} {b : β} {l : List (α × β)}
    (h : (l.map Prod.fst).Nodup) : l.lookup a = some b ↔ (a, b) ∈ l := by
  induction l with
  | nil => simp
  | cons p l ih =>
    obtain ⟨k, b'⟩ := p
    rw [List.map_cons, List.nodup_cons] at h
    rw [lookup_cons_eq_ite, List.mem_cons, Prod.mk.injEq]
    by_cases hk : a = k
    · have hnot : (a, b) ∉ l := fun hm => h.1 (List.mem_map.mpr ⟨_, hm, hk⟩)
      rw [if_pos hk, Option.some.injEq]
      exact ⟨fun hb => Or.inl ⟨hk, hb.symm⟩, fun hm => (hm.resolve_right hnot).2.symm⟩
    · rw [if_neg hk, ih h.2]
      exact ⟨Or.inr, fun hm => hm.resolve_left fun he => hk he.1⟩

/-! ## Steps -/

namespace FlightStep

/-- The key that the step asks for. -/
def key? : FlightStep K V E → Option K
  | get key => some key
  | _ => none

/-- The handle that the step is about. -/
def handle? : FlightStep K V E → Option Nat
  | get _ => none
  | insert h _ | fail h _ | drop h | wait h => some h

theorem key?_eq_none {s : FlightStep K V E} {h : Nat} (hs : s.handle? = some h) :
    s.key? = none := by
  cases s with
  | get key => cases hs
  | insert | fail | drop | wait => rfl

/-- The outcome of a flight whose first caller takes the step. -/
def ending : FlightStep K V E → Outcome V E
  | insert _ v => .value v
  | fail _ e => .failed e
  | get _ | drop _ | wait _ => .abandoned

end FlightStep

/-- The value that a flight ended with, if it did. -/
def Outcome.value? : Outcome V E → Option V
  | value v => some v
  | failed _ | abandoned => none

namespace FlightCache

variable [DecidableEq K]

/-- The cache with a new flight under way. -/
def start (c : FlightCache K V E) (key : K) : FlightCache K V E :=
  { c with flying := (key, c.begun) :: c.flying, begun := c.begun + 1 }

/-- The cache once the first caller of a flight has ended it: a value is stored. -/
def finish (c : FlightCache K V E) (key : K) (flight : Nat) : Outcome V E → FlightCache K V E
  | .value v => (c.store key v).land key flight (.value v)
  | outcome => c.land key flight outcome

variable (c : FlightCache K V E) (key other : K) (flight : Nat) (outcome : Outcome V E)

@[simp] theorem flying_finish :
    (c.finish key flight outcome).flying = c.flying.filter (· ≠ (key, flight)) := by
  cases outcome <;> rfl

@[simp] theorem begun_finish : (c.finish key flight outcome).begun = c.begun := by
  cases outcome <;> rfl

theorem outcome?_finish (other : Nat) : (c.finish key flight outcome).outcome? other =
    if other = flight then some outcome else c.outcome? other := by
  have hlanded : (c.finish key flight outcome).landed = (flight, outcome) :: c.landed := by
    cases outcome <;> rfl
  rw [outcome?, hlanded, lookup_cons_eq_ite, outcome?]

theorem lookup_store (v : V) : (c.store key v).stored.lookup other =
    if other = key then some v else c.stored.lookup other := by
  rw [store, lookup_cons_eq_ite]
  split
  · rfl
  · rename_i h
    exact lookup_filter_ne h _

theorem lookup_finish : (c.finish key flight outcome).stored.lookup other =
    if other = key then (outcome.value?.or (c.stored.lookup key)) else c.stored.lookup other := by
  have hsame : c.stored.lookup other =
      if other = key then c.stored.lookup key else c.stored.lookup other := by
    split
    · rename_i h
      rw [h]
    · rfl
  cases outcome with
  | value v => exact c.lookup_store key other v
  | failed e => exact hsame
  | abandoned => exact hsame

theorem nodup_keys_finish (hc : (c.stored.map Prod.fst).Nodup) :
    ((c.finish key flight outcome).stored.map Prod.fst).Nodup := by
  cases outcome with
  | value v =>
    change ((key, v) :: c.stored.filter (·.1 ≠ key) |>.map Prod.fst).Nodup
    rw [List.map_cons, List.nodup_cons]
    refine ⟨fun hm => ?_, hc.sublist (List.filter_sublist.map _)⟩
    obtain ⟨p, hp, he⟩ := List.mem_map.mp hm
    have hne := (List.mem_filter.mp hp).2
    simp [he] at hne
  | failed e => exact hc
  | abandoned => exact hc

/-- What a ticket for a key says of the cache that hands it out. -/
def Issues (c : FlightCache K V E) (key : K) : Ticket K V → Prop
  | .first k flight => k = key ∧ flight = c.begun
  | .waiting flight => c.flying.lookup key = some flight
  | .stored v => c.stored.lookup key = some v

end FlightCache

namespace FlightRun

variable (r : FlightRun K V E)

/-! ## What callers have in hand -/

/-- The caller of the handle is the first one of a flight that has not ended. -/
def Leads (handle : Nat) (key : K) (flight : Nat) : Prop :=
  r.holding handle = .ticket (.first key flight)

/-- The caller of the handle has yet to be told the outcome of another's flight. -/
def Waits (handle flight : Nat) : Prop :=
  r.holding handle = .ticket (.waiting flight) ∨ r.holding handle = .polling flight

/-- The run with one more caller, who is handed a ticket. -/
def hand (ticket : Ticket K V) (cache : FlightCache K V E) : FlightRun K V E :=
  ⟨cache, r.holdings ++ [.ticket ticket]⟩

theorem length_hand (t : Ticket K V) (c : FlightCache K V E) :
    (r.hand t c).holdings.length = r.holdings.length + 1 := List.length_append

theorem length_settle (h : Nat) (new : Holding K V) (c : FlightCache K V E) :
    (r.settle h new c).holdings.length = r.holdings.length := List.length_set

variable {r}

theorem holding_of_length_le {h : Nat} (hh : r.holdings.length ≤ h) : r.holding h = .nothing :=
  List.getD_eq_default _ _ hh

theorem lt_length_of_holding {h : Nat} (hh : r.holding h ≠ .nothing) : h < r.holdings.length := by
  rw [← Nat.not_le]
  exact fun hle => hh (holding_of_length_le hle)

theorem holding_hand (t : Ticket K V) (c : FlightCache K V E) (h : Nat) :
    (r.hand t c).holding h = if h = r.holdings.length then .ticket t else r.holding h := by
  unfold hand holding
  rcases Nat.lt_trichotomy h r.holdings.length with hlt | rfl | hgt
  · rw [List.getD_append _ _ _ _ hlt, if_neg (Nat.ne_of_lt hlt)]
  · rw [List.getD_append_right _ _ _ _ (Nat.le_refl _), if_pos rfl, Nat.sub_self]
    rfl
  · rw [if_neg (Nat.ne_of_gt hgt), List.getD_eq_default _ _ (Nat.le_of_lt hgt),
      List.getD_eq_default _ _ (by rw [List.length_append]; exact hgt)]

theorem holding_hand_last {h : Nat} (hh : h = r.holdings.length) (t : Ticket K V)
    (c : FlightCache K V E) : (r.hand t c).holding h = .ticket t := by
  rw [holding_hand, if_pos hh]

theorem holding_settle (h h' : Nat) (new : Holding K V) (c : FlightCache K V E) :
    (r.settle h new c).holding h' =
      if h' = h then if h < r.holdings.length then new else .nothing else r.holding h' := by
  unfold settle holding
  rw [List.getD_eq_getElem?_getD, List.getD_eq_getElem?_getD, List.getElem?_set]
  by_cases hh : h' = h
  · rw [if_pos hh, if_pos hh.symm]
    split <;> rfl
  · rw [if_neg hh, if_neg (Ne.symm hh)]

theorem holding_settle_of_ne {h h' : Nat} (hne : h' ≠ h) (new : Holding K V)
    (c : FlightCache K V E) : (r.settle h new c).holding h' = r.holding h' := by
  rw [holding_settle, if_neg hne]

theorem settle_holding (h : Nat) : r.settle h (r.holding h) r.cache = r := by
  unfold settle
  by_cases hlt : h < r.holdings.length
  · rw [holding, List.getD_eq_getElem _ _ hlt, List.set_getElem_self]
  · rw [List.set_eq_of_length_le (Nat.le_of_not_lt hlt)]

theorem Leads.lt {h : Nat} {key : K} {flight : Nat} (hl : r.Leads h key flight) :
    h < r.holdings.length := by
  have hh : r.holding h = .ticket (.first key flight) := hl
  exact lt_length_of_holding (by simp [hh])

theorem Waits.ne_nothing {w flight : Nat} (hw : r.Waits w flight) : r.holding w ≠ .nothing := by
  rcases hw with hw | hw <;> simp [hw]

theorem Waits.lt {w flight : Nat} (hw : r.Waits w flight) : w < r.holdings.length :=
  lt_length_of_holding hw.ne_nothing

theorem Waits.eq {w flight flight' : Nat} (hw : r.Waits w flight) (hw' : r.Waits w flight') :
    flight = flight' := by
  rcases hw with hw | hw <;> rcases hw' with hw' | hw' <;> cases hw.symm.trans hw' <;> rfl

/-! ## Changes -/

variable [DecidableEq K]

/-- What a step does to a run. -/
inductive Change (r : FlightRun K V E) : FlightStep K V E → FlightRun K V E → Prop
  /-- The value that is asked for is stored. -/
  | hit {key : K} {v : V} (hs : r.cache.stored.lookup key = some v) :
    Change r (.get key) (r.hand (.stored v) r.cache)
  /-- Another caller is about to find the value. -/
  | join {key : K} {flight : Nat} (hs : r.cache.stored.lookup key = none)
      (hf : r.cache.flying.lookup key = some flight) :
    Change r (.get key) (r.hand (.waiting flight) r.cache)
  /-- The caller is a first one. -/
  | start {key : K} (hs : r.cache.stored.lookup key = none)
      (hf : r.cache.flying.lookup key = none) :
    Change r (.get key) (r.hand (.first key r.cache.begun) (r.cache.start key))
  /-- A first caller ends its flight. -/
  | finish {s : FlightStep K V E} {h : Nat} {key : K} {flight : Nat} (hs : s.handle? = some h)
      (hl : r.Leads h key flight) :
    Change r s (r.settle h .nothing (r.cache.finish key flight s.ending))
  /-- Another caller goes on waiting, or has nothing in hand any more. -/
  | settle {s : FlightStep K V E} {h : Nat} {new : Holding K V} (hs : s.handle? = some h)
      (hl : ∀ key flight, ¬ r.Leads h key flight)
      (hnew : new = .nothing ∨ ∃ flight, new = .polling flight ∧ r.Waits h flight) :
    Change r s (r.settle h new r.cache)

section

variable {s : FlightStep K V E} {h : Nat}

/-- A ticket is given back. -/
theorem change_giveBack {t : Ticket K V} {cache : FlightCache K V E} (hs : s.handle? = some h)
    (ht : r.holding h = .ticket t)
    (hc : cache = match t with
      | .first key flight => r.cache.finish key flight s.ending
      | _ => r.cache) :
    Change r s (r.settle h .nothing cache) := by
  subst hc
  cases t with
  | first key flight => exact .finish hs ht
  | waiting flight => exact .settle hs (fun _ _ hl => by cases ht.symm.trans hl) (Or.inl rfl)
  | stored v => exact .settle hs (fun _ _ hl => by cases ht.symm.trans hl) (Or.inl rfl)

theorem change_poll {flight : Nat} (hs : s.handle? = some h) (hw : r.Waits h flight) :
    Change r s (r.poll h flight).2 := by
  have hl : ∀ key flight, ¬ r.Leads h key flight := by
    intro key f hl
    rcases hw with hw | hw <;> cases hw.symm.trans hl
  unfold poll
  split
  · exact .settle hs hl (Or.inl rfl)
  · exact .settle hs hl (Or.inr ⟨flight, rfl, hw⟩)

/-- Nothing changes for a caller that has no ticket. -/
theorem change_idle (hs : s.handle? = some h) (hh : ∀ t, r.holding h ≠ .ticket t) :
    Change r s r := by
  have hnew : r.holding h = .nothing ∨
      ∃ flight, r.holding h = .polling flight ∧ r.Waits h flight := by
    cases hhold : r.holding h with
    | ticket t => exact absurd hhold (hh t)
    | polling flight => exact Or.inr ⟨flight, rfl, Or.inr hhold⟩
    | nothing => exact Or.inl rfl
  have hc : Change r s (r.settle h (r.holding h) r.cache) :=
    .settle hs (fun _ _ hl => hh _ hl) hnew
  rwa [settle_holding] at hc

end

/-- Every step is one of the changes. -/
theorem change_step (r : FlightRun K V E) (s : FlightStep K V E) : Change r s (r.step s).2 := by
  cases s with
  | get key =>
    simp only [step, FlightCache.get]
    split
    · exact .hit ‹_›
    · split
      · exact .join ‹_› ‹_›
      · exact .start ‹_› ‹_›
  | insert h v =>
    cases hh : r.holding h with
    | ticket t =>
      simp only [step, hh]
      exact change_giveBack rfl hh (by cases t <;> rfl)
    | _ =>
      simp only [step, hh]
      exact change_idle rfl (by simp [hh])
  | fail h e =>
    cases hh : r.holding h with
    | ticket t =>
      simp only [step, hh]
      exact change_giveBack rfl hh (by cases t <;> rfl)
    | _ =>
      simp only [step, hh]
      exact change_idle rfl (by simp [hh])
  | drop h =>
    cases hh : r.holding h with
    | ticket t =>
      simp only [step, hh]
      exact change_giveBack rfl hh (by cases t <;> rfl)
    | polling flight =>
      simp only [step, hh]
      exact .settle rfl (fun _ _ hl => by cases hh.symm.trans hl) (Or.inl rfl)
    | nothing =>
      simp only [step, hh]
      exact change_idle rfl (by simp [hh])
  | wait h =>
    cases hh : r.holding h with
    | ticket t =>
      cases t with
      | first key flight =>
        simp only [step, hh]
        exact .finish (s := .wait h) rfl hh
      | waiting flight =>
        simp only [step, hh]
        exact change_poll rfl (Or.inl hh)
      | stored v =>
        simp only [step, hh]
        exact .settle rfl (fun _ _ hl => by cases hh.symm.trans hl) (Or.inl rfl)
    | polling flight =>
      simp only [step, hh]
      exact change_poll rfl (Or.inr hh)
    | nothing =>
      simp only [step, hh]
      exact change_idle rfl (by simp [hh])

/-- A step touches only what its own caller has in hand. -/
theorem Change.holding_of_ne {s : FlightStep K V E} {r' : FlightRun K V E} (hc : Change r s r')
    {h : Nat} (hlt : h < r.holdings.length) (hne : s.handle? ≠ some h) :
    r'.holding h = r.holding h := by
  cases hc with
  | hit | join | start => rw [holding_hand, if_neg (Nat.ne_of_lt hlt)]
  | finish hs | settle hs =>
    refine holding_settle_of_ne ?_ _ _
    rintro rfl
    exact hne hs

/-- After a step a caller has in hand what it had before, or nothing, or it waits on without its
    ticket; or it is the one who has just asked for a key. -/
theorem Change.holding_cases {s : FlightStep K V E} {r' : FlightRun K V E} (hc : Change r s r')
    (h : Nat) :
    r'.holding h = r.holding h ∨ r'.holding h = .nothing ∨
      (∃ flight, r'.holding h = .polling flight ∧ r.Waits h flight) ∨
      ∃ key t, s = .get key ∧ h = r.holdings.length ∧ r'.holding h = .ticket t ∧
        r.cache.Issues key t := by
  -- the handle of the next caller is one past the last
  by_cases hh : h = r.holdings.length
  · cases hc with
    | hit hs => exact Or.inr (Or.inr (Or.inr ⟨_, _, rfl, hh, holding_hand_last hh _ _, hs⟩))
    | join _ hf => exact Or.inr (Or.inr (Or.inr ⟨_, _, rfl, hh, holding_hand_last hh _ _, hf⟩))
    | start => exact Or.inr (Or.inr (Or.inr ⟨_, _, rfl, hh, holding_hand_last hh _ _, rfl, rfl⟩))
    | finish | settle =>
      refine Or.inr (Or.inl (holding_of_length_le ?_))
      rw [length_settle]
      exact Nat.le_of_eq hh.symm
  · cases hc with
    | hit | join | start => exact Or.inl ((holding_hand _ _ _).trans (if_neg hh))
    | finish =>
      rw [holding_settle]
      split
      · exact Or.inr (Or.inl (ite_self _))
      · exact Or.inl rfl
    | settle _ _ hnew =>
      rw [holding_settle]
      split
      · rename_i he
        rcases hnew with rfl | ⟨flight, rfl, hw⟩
        · exact Or.inr (Or.inl (ite_self _))
        · split
          · exact Or.inr (Or.inr (Or.inl ⟨flight, rfl, he ▸ hw⟩))
          · exact Or.inr (Or.inl rfl)
      · exact Or.inl rfl

/-! ## Runs -/

/-- The run after some more steps. -/
def after (r : FlightRun K V E) (steps : List (FlightStep K V E)) : FlightRun K V E :=
  (r.run steps).2

@[simp] theorem after_nil : r.after [] = r := rfl

@[simp] theorem after_cons (s : FlightStep K V E) (rest : List (FlightStep K V E)) :
    r.after (s :: rest) = (r.step s).2.after rest := rfl

theorem after_append (steps more : List (FlightStep K V E)) :
    r.after (steps ++ more) = (r.after steps).after more := by
  induction steps generalizing r with
  | nil => rfl
  | cons s rest ih => exact ih

/-- What every change keeps holds of the run at all later times. -/
theorem after_induction {P : FlightRun K V E → Prop}
    (hchange : ∀ {r r' : FlightRun K V E} {s : FlightStep K V E}, P r → Change r s r' → P r')
    (hr : P r) (steps : List (FlightStep K V E)) : P (r.after steps) := by
  induction steps generalizing r with
  | nil => exact hr
  | cons s rest ih => exact ih (hchange hr (change_step r s))

end FlightRun

end QueryShapes
