/-
  What callers are told who wait for another's flight.

  A flight has no outcome while its first caller has its ticket in hand, and ends with
  the first step that this caller takes (`outcome?_after_eq_fate`).  A caller who joined
  the flight waits for it until it gives its ticket back or is told the outcome
  (`waits_after`), so it can be told nothing but the fate of that very flight, whatever
  became of the key in between (`told_fate`).
-/
import QueryShapes.Proofs.Flight.SingleFlight

namespace QueryShapes

variable {K V E : Type}

/-- How the flight of a first caller ends: with the first of the steps that is about it. -/
def fate (h : Nat) (steps : List (FlightStep K V E)) : Option (Outcome V E) :=
  (steps.find? (·.handle? = some h)).map (·.ending)

/-- What a caller is told who asks for the outcome of a flight. -/
def FlightReply.ofFate : Option (Outcome V E) → FlightReply V E
  | none => .pending
  | some outcome => .answered outcome

theorem fate_cons_of_eq {h : Nat} {s : FlightStep K V E} (hs : s.handle? = some h)
    (rest : List (FlightStep K V E)) : fate h (s :: rest) = some s.ending := by
  have hfind : (s :: rest).find? (·.handle? = some h) = some s :=
    List.find?_cons_of_pos (by simpa using hs)
  rw [fate, hfind, Option.map_some]

theorem fate_cons_of_ne {h : Nat} {s : FlightStep K V E} (hs : s.handle? ≠ some h)
    (rest : List (FlightStep K V E)) : fate h (s :: rest) = fate h rest := by
  have hfind : (s :: rest).find? (·.handle? = some h) = rest.find? (·.handle? = some h) :=
    List.find?_cons_of_neg (by simpa using hs)
  rw [fate, fate, hfind]

namespace FlightRun

variable {r r' : FlightRun K V E} [DecidableEq K] {s : FlightStep K V E}

/-! ## The flight of a first caller -/

/-- The first step that a first caller takes ends its flight. -/
theorem Change.outcome?_of_leads (hc : Change r s r') {h : Nat} {key : K} {flight : Nat}
    (hl : r.Leads h key flight) (hs : s.handle? = some h) :
    r'.cache.outcome? flight = some s.ending := by
  cases hc with
  | hit | join | start => cases hs
  | finish hs' hl' =>
    obtain rfl := Option.some.inj (hs'.symm.trans hs)
    cases hl'.symm.trans hl
    exact (FlightCache.outcome?_finish _ _ _ _ _).trans (if_pos rfl)
  | settle hs' hnone =>
    obtain rfl := Option.some.inj (hs'.symm.trans hs)
    exact absurd hl (hnone key flight)

theorem outcome?_after_eq_fate (hr : r.Sound) {h : Nat} {key : K} {flight : Nat}
    (hl : r.Leads h key flight) (steps : List (FlightStep K V E)) :
    (r.after steps).cache.outcome? flight = fate h steps := by
  induction steps generalizing r with
  | nil => exact hr.aloft h key flight hl
  | cons s rest ih =>
    have hc := change_step r s
    by_cases hs : s.handle? = some h
    · rw [fate_cons_of_eq hs, after_cons]
      exact outcome?_after (hr.change hc) (hc.outcome?_of_leads hl hs) rest
    · have hl' : (r.step s).2.Leads h key flight := (hc.holding_of_ne hl.lt hs).trans hl
      rw [fate_cons_of_ne hs, after_cons]
      exact ih (hr.change hc) hl'

/-- A first caller is one until it takes a step. -/
theorem leads_after_iff (hr : r.Sound) {h : Nat} {key : K} {flight : Nat}
    (hl : r.Leads h key flight) (steps : List (FlightStep K V E)) :
    (r.after steps).Leads h key flight ↔ fate h steps = none := by
  constructor
  · intro hlive
    rw [← outcome?_after_eq_fate hr hl]
    exact (hr.after steps).aloft h key flight hlive
  · intro hnone
    induction steps generalizing r with
    | nil => exact hl
    | cons s rest ih =>
      have hc := change_step r s
      by_cases hs : s.handle? = some h
      · rw [fate_cons_of_eq hs] at hnone
        cases hnone
      · rw [fate_cons_of_ne hs] at hnone
        have hl' : (r.step s).2.Leads h key flight := (hc.holding_of_ne hl.lt hs).trans hl
        exact ih (hr.change hc) hl' hnone

/-! ## The callers who wait for it -/

/-- What a waiting caller is told. -/
theorem Waits.step_wait {w flight : Nat} (hw : r.Waits w flight) :
    (r.step (.wait w)).1 = .ofFate (r.cache.outcome? flight) := by
  have hstep : r.step (.wait w) = r.poll w flight := by
    rcases hw with hw | hw <;> simp only [step, hw]
  rw [hstep]
  unfold poll
  cases r.cache.outcome? flight <;> rfl

/-- A caller who is told that the outcome is pending goes on waiting. -/
theorem Waits.step_wait_of_pending {w flight : Nat} (hw : r.Waits w flight)
    (ho : r.cache.outcome? flight = none) : (r.step (.wait w)).2.Waits w flight := by
  have hstep : (r.step (.wait w)).2 = r.settle w (.polling flight) r.cache := by
    rcases hw with hw | hw <;> simp only [step, hw, poll, ho]
  rw [hstep]
  refine Or.inr ?_
  rw [holding_settle, if_pos rfl, if_pos hw.lt]

/-- A caller waits for one flight, and then has nothing in hand. -/
theorem Change.waits_or_nothing (hc : Change r s r') {w flight : Nat}
    (hw : r.Waits w flight ∨ r.holding w = .nothing) (hlt : w < r.holdings.length) :
    r'.Waits w flight ∨ r'.holding w = .nothing := by
  rcases hc.holding_cases w with hsame | hnothing | ⟨f, hpolling, hf⟩ | ⟨_, _, _, hlast, _⟩
  · unfold Waits at hw ⊢
    rwa [hsame]
  · exact Or.inr hnothing
  · have hwaits := hw.resolve_right hf.ne_nothing
    rw [hwaits.eq hf]
    exact Or.inl (Or.inr hpolling)
  · exact absurd hlast (Nat.ne_of_lt hlt)

theorem Change.length_le (hc : Change r s r') : r.holdings.length ≤ r'.holdings.length := by
  cases hc with
  | hit | join | start =>
    rw [length_hand]
    exact Nat.le_succ _
  | finish | settle => exact Nat.le_of_eq (r.length_settle _ _ _).symm

theorem waits_or_nothing_after {w flight : Nat} (hw : r.Waits w flight)
    (steps : List (FlightStep K V E)) :
    (r.after steps).Waits w flight ∨ (r.after steps).holding w = .nothing := by
  have hboth := after_induction
    (P := fun r => (r.Waits w flight ∨ r.holding w = .nothing) ∧ w < r.holdings.length)
    (fun h hc => ⟨hc.waits_or_nothing h.1 h.2, Nat.lt_of_lt_of_le h.2 hc.length_le⟩)
    ⟨Or.inl hw, hw.lt⟩ steps
  exact hboth.1

/-- A caller waits until it gives its ticket back or is told the outcome. -/
theorem waits_after {w flight : Nat} (hw : r.Waits w flight) (steps : List (FlightStep K V E)) :
    (r.after steps).Waits w flight ∨
      ∃ i, ∃ hi : i < steps.length, steps[i].handle? = some w ∧
        (steps[i] = .wait w → (r.after (steps.take i)).cache.outcome? flight ≠ none) := by
  induction steps generalizing r with
  | nil => exact Or.inl hw
  | cons s rest ih =>
    have hc := change_step r s
    have hlater : (r.step s).2.Waits w flight →
        (r.after (s :: rest)).Waits w flight ∨
          ∃ i, ∃ hi : i < (s :: rest).length, (s :: rest)[i].handle? = some w ∧
            ((s :: rest)[i] = .wait w →
              (r.after ((s :: rest).take i)).cache.outcome? flight ≠ none) := by
      intro hw'
      rcases ih hw' with hw'' | ⟨i, hi, hstep⟩
      · exact Or.inl hw''
      · exact Or.inr ⟨i + 1, Nat.succ_lt_succ hi, hstep⟩
    -- of the caller's own steps only one that is told the outcome is pending leaves it waiting
    by_cases hs : s.handle? = some w
    · by_cases hpending : s = .wait w ∧ r.cache.outcome? flight = none
      · obtain ⟨rfl, ho⟩ := hpending
        exact hlater (hw.step_wait_of_pending ho)
      · refine Or.inr ⟨0, Nat.zero_lt_succ _, hs, fun he ho => ?_⟩
        exact hpending ⟨he, ho⟩
    · apply hlater
      unfold Waits
      rwa [hc.holding_of_ne hw.lt hs]

/-- A caller who asks for a key with a first caller waits for that one's flight. -/
theorem Sound.step_get_of_leads (hr : r.Sound) {h : Nat} {key : K} {flight : Nat}
    (hl : r.Leads h key flight) :
    (r.step (.get key)).1 = .opened r.holdings.length false ∧
      (r.step (.get key)).2.Waits r.holdings.length flight := by
  have hs : r.cache.stored.lookup key = none := hr.unstored h key flight hl
  have hf : r.cache.flying.lookup key = some flight := hr.lookup_flying.mpr ⟨h, hl⟩
  have hstep : r.step (.get key) =
      (.opened r.holdings.length false, r.hand (.waiting flight) r.cache) := by
    simp only [step, FlightCache.get, hs, hf]
    rfl
  rw [hstep]
  exact ⟨rfl, Or.inl (holding_hand_last rfl _ _)⟩

/-- The run is one of callers who began with an empty cache. -/
def Reachable (r : FlightRun K V E) : Prop :=
  ∃ steps, ({} : FlightRun K V E).after steps = r

theorem Reachable.sound (hr : r.Reachable) : r.Sound := by
  obtain ⟨steps, rfl⟩ := hr
  exact Sound.start_run.after steps

/-- Whoever joins the flight of a first caller is told that it is pending as long as the first
    caller has taken no step, and the fate of that flight from then on.  So it is however late
    and however often it asks, and whatever else happens: it has nothing left to ask with only
    after it gave its ticket back or was told the fate. -/
theorem told_fate (r : FlightRun K V E) (hr : r.Reachable) (before later : List (FlightStep K V E))
    (h : Nat) (key : K) (flight : Nat) (hfirst : r.Leads h key flight)
    (hjoin : (r.after before).Leads h key flight) :
    let w := (r.after before).holdings.length
    let steps := before ++ .get key :: later
    ((r.after before).step (.get key)).1 = .opened w false ∧
      ((r.after steps).Leads h key flight ↔ fate h steps = none) ∧
      ((r.after steps).holding w ≠ .nothing →
        ((r.after steps).step (.wait w)).1 = .ofFate (fate h steps)) ∧
      ((r.after steps).holding w = .nothing →
        ∃ i, ∃ hi : i < later.length, later[i].handle? = some w ∧
          (later[i] = .wait w → fate h (before ++ .get key :: later.take i) ≠ none)) := by
  intro w steps
  obtain ⟨hget, hwaits⟩ := (hr.sound.after before).step_get_of_leads hjoin
  have hafter : ∀ more, r.after (before ++ .get key :: more) =
      ((r.after before).step (.get key)).2.after more := by
    intro more
    rw [after_append, after_cons]
  have hsteps : r.after steps = ((r.after before).step (.get key)).2.after later := hafter later
  refine ⟨hget, leads_after_iff hr.sound hfirst steps, fun hheld => ?_, fun hgone => ?_⟩
  · have hw : (r.after steps).Waits w flight := by
      rw [hsteps] at hheld ⊢
      exact (waits_or_nothing_after hwaits later).resolve_right hheld
    rw [hw.step_wait, outcome?_after_eq_fate hr.sound hfirst]
  · rcases waits_after hwaits later with hw | ⟨i, hi, hs, hanswered⟩
    · rw [← hsteps] at hw
      exact absurd hgone hw.ne_nothing
    · refine ⟨i, hi, hs, fun he => ?_⟩
      rw [← outcome?_after_eq_fate hr.sound hfirst, hafter]
      exact hanswered he

/-- A caller who asks only once the next flight of its key has landed a value is still told the
    error of the flight that it joined. -/
theorem told_fate_late :
    let r := ({} : FlightRun Nat String String).after [.get 7]
    let steps := [.get 7, .wait 1, .fail 0 "boom", .get 7, .insert 2 "query"]
    (r.after steps).holding 1 ≠ .nothing ∧
      ((r.after steps).step (.wait 1)).1 = .answered (.failed "boom") := by
  intro r steps
  have hfirst : r.Leads 0 7 0 := rfl
  have hheld : (r.after steps).holding 1 ≠ .nothing := by decide
  obtain ⟨-, -, htold, -⟩ := told_fate r ⟨[.get 7], rfl⟩ [] steps.tail 0 7 0 hfirst hfirst
  exact ⟨hheld, htold hheld⟩

end FlightRun

end QueryShapes
