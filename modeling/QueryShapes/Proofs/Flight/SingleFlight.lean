/-
  Each key has one flight at a time, and each value is stored once.

  The flights under way are those of the first callers that have not ended them,
  with one of them for each key and none for a key that is stored (`Sound`); a
  step keeps this, so every run does.  Hence a value is stored only where none
  was (`Change.toList_stored`), the values that a run stores under a key are the
  one that is found there (`toList_stored_after`), and it is the one that every
  caller of the key is told (`Truthful`).
-/
import QueryShapes.Proofs.Flight.Changes

namespace QueryShapes.FlightRun

variable {K V E : Type} {r r' : FlightRun K V E}

/-! ## First callers -/

theorem leads_hand {t : Ticket K V} {c : FlightCache K V E} {h : Nat} {key : K} {flight : Nat} :
    (r.hand t c).Leads h key flight ↔
      r.Leads h key flight ∨ (h = r.holdings.length ∧ t = .first key flight) := by
  unfold Leads
  rw [holding_hand]
  by_cases hh : h = r.holdings.length
  · rw [if_pos hh, holding_of_length_le (Nat.le_of_eq hh.symm)]
    simp [hh]
  · rw [if_neg hh]
    simp [hh]

theorem leads_settle {h₀ : Nat} {new : Holding K V} (hnew : ∀ t, new ≠ .ticket t)
    {c : FlightCache K V E} {h : Nat} {key : K} {flight : Nat} :
    (r.settle h₀ new c).Leads h key flight ↔ r.Leads h key flight ∧ h ≠ h₀ := by
  unfold Leads
  rw [holding_settle]
  by_cases hh : h = h₀
  · rw [if_pos hh]
    split <;> simp [hh, hnew]
  · rw [if_neg hh]
    simp [hh]

variable [DecidableEq K] {s : FlightStep K V E}

/-- What holds of the flights of a run at any time. -/
structure Sound (r : FlightRun K V E) : Prop where
  /-- The flights under way are those of the first callers. -/
  flying_iff : ∀ key flight, (key, flight) ∈ r.cache.flying ↔ ∃ h, r.Leads h key flight
  /-- No key has two of them. -/
  keys : (r.cache.flying.map Prod.fst).Nodup
  /-- A flight has one first caller. -/
  leader : ∀ h h' key key' flight, r.Leads h key flight → r.Leads h' key' flight → h = h'
  begun : ∀ h key flight, r.Leads h key flight → flight < r.cache.begun
  aloft : ∀ h key flight, r.Leads h key flight → r.cache.outcome? flight = none
  landed : ∀ flight outcome, r.cache.outcome? flight = some outcome → flight < r.cache.begun
  /-- A key with a flight under way is not stored. -/
  unstored : ∀ h key flight, r.Leads h key flight → r.cache.stored.lookup key = none

namespace Sound

theorem lookup_flying (hr : r.Sound) {key : K} {flight : Nat} :
    r.cache.flying.lookup key = some flight ↔ ∃ h, r.Leads h key flight := by
  rw [lookup_eq_some_iff_mem hr.keys, hr.flying_iff]

/-- A key has one first caller. -/
theorem leader_of_key (hr : r.Sound) {h h' : Nat} {key : K} {flight flight' : Nat}
    (hl : r.Leads h key flight) (hl' : r.Leads h' key flight') : h = h' := by
  have hf := hr.lookup_flying.mpr ⟨h, hl⟩
  have hf' := hr.lookup_flying.mpr ⟨h', hl'⟩
  obtain rfl : flight = flight' := Option.some.inj (hf.symm.trans hf')
  exact hr.leader h h' key key flight hl hl'

/-- A change of what other callers have in hand. -/
theorem congr (hr : r.Sound) (hc : r'.cache = r.cache)
    (hl : ∀ h key flight, r'.Leads h key flight ↔ r.Leads h key flight) : r'.Sound where
  flying_iff := by simpa only [hc, hl] using hr.flying_iff
  keys := by simpa only [hc] using hr.keys
  leader := by simpa only [hl] using hr.leader
  begun := by simpa only [hc, hl] using hr.begun
  aloft := by simpa only [hc, hl] using hr.aloft
  landed := by simpa only [hc] using hr.landed
  unstored := by simpa only [hc, hl] using hr.unstored

theorem start (hr : r.Sound) {key : K} (hs : r.cache.stored.lookup key = none)
    (hf : r.cache.flying.lookup key = none) :
    (r.hand (.first key r.cache.begun) (r.cache.start key)).Sound where
  flying_iff := by
    intro k f
    change (k, f) ∈ (key, r.cache.begun) :: r.cache.flying ↔ _
    rw [List.mem_cons, hr.flying_iff]
    simp only [leads_hand]
    constructor
    · rintro (he | ⟨h, hl⟩)
      · cases he
        exact ⟨_, Or.inr ⟨rfl, rfl⟩⟩
      · exact ⟨h, Or.inl hl⟩
    · rintro ⟨h, hl | ⟨-, ht⟩⟩
      · exact Or.inr ⟨h, hl⟩
      · cases ht
        exact Or.inl rfl
  keys := by
    change ((key, r.cache.begun) :: r.cache.flying |>.map Prod.fst).Nodup
    rw [List.map_cons, List.nodup_cons]
    refine ⟨fun hm => ?_, hr.keys⟩
    obtain ⟨⟨k, f⟩, hpair, rfl⟩ := List.mem_map.mp hm
    rw [(lookup_eq_some_iff_mem hr.keys).mpr hpair] at hf
    cases hf
  leader := by
    simp only [leads_hand]
    rintro h h' k k' f (hl | ⟨rfl, ht⟩) (hl' | ⟨rfl, ht'⟩)
    · exact hr.leader h h' k k' f hl hl'
    · cases ht'
      exact absurd (hr.begun h k _ hl) (Nat.lt_irrefl _)
    · cases ht
      exact absurd (hr.begun h' k' _ hl') (Nat.lt_irrefl _)
    · rfl
  begun := by
    simp only [leads_hand]
    rintro h k f (hl | ⟨-, ht⟩)
    · exact Nat.lt_succ_of_lt (hr.begun h k f hl)
    · cases ht
      exact Nat.lt_succ_self _
  aloft := by
    simp only [leads_hand]
    rintro h k f (hl | ⟨-, ht⟩)
    · exact hr.aloft h k f hl
    · cases ht
      change r.cache.outcome? r.cache.begun = none
      cases ho : r.cache.outcome? r.cache.begun with
      | none => rfl
      | some o => exact absurd (hr.landed _ _ ho) (Nat.lt_irrefl _)
  landed := fun f o ho => Nat.lt_succ_of_lt (hr.landed f o ho)
  unstored := by
    simp only [leads_hand]
    rintro h k f (hl | ⟨-, ht⟩)
    · exact hr.unstored h k f hl
    · cases ht
      exact hs

theorem finish (hr : r.Sound) {h₀ : Nat} {key : K} {flight : Nat} (hl₀ : r.Leads h₀ key flight)
    (outcome : Outcome V E) :
    (r.settle h₀ .nothing (r.cache.finish key flight outcome)).Sound := by
  have hleads : ∀ h k f, (r.settle h₀ .nothing (r.cache.finish key flight outcome)).Leads h k f ↔
      r.Leads h k f ∧ h ≠ h₀ := fun _ _ _ => leads_settle (by simp)
  -- the other first callers lead other flights, so landing this one is nothing to them
  have hother : ∀ h k f, r.Leads h k f → h ≠ h₀ → f ≠ flight := by
    rintro h k f hl hne rfl
    exact hne (hr.leader h h₀ k key f hl hl₀)
  have hcache : (r.settle h₀ .nothing (r.cache.finish key flight outcome)).cache =
      r.cache.finish key flight outcome := rfl
  constructor
  case flying_iff =>
    intro k f
    simp only [hcache, FlightCache.flying_finish, hleads, List.mem_filter, hr.flying_iff,
      decide_eq_true_eq]
    constructor
    · rintro ⟨⟨h, hl⟩, hne⟩
      refine ⟨h, hl, ?_⟩
      rintro rfl
      cases hl.symm.trans hl₀
      exact hne rfl
    · rintro ⟨h, hl, hne⟩
      exact ⟨⟨h, hl⟩, fun he => hother h k f hl hne (Prod.mk.inj he).2⟩
  case keys =>
    rw [hcache, FlightCache.flying_finish]
    exact hr.keys.sublist (List.filter_sublist.map _)
  case leader =>
    simp only [hleads]
    exact fun h h' k k' f hl hl' => hr.leader h h' k k' f hl.1 hl'.1
  case begun =>
    simp only [hleads, hcache, FlightCache.begun_finish]
    exact fun h k f hl => hr.begun h k f hl.1
  case aloft =>
    simp only [hleads, hcache, FlightCache.outcome?_finish]
    intro h k f hl
    rw [if_neg (hother h k f hl.1 hl.2)]
    exact hr.aloft h k f hl.1
  case landed =>
    simp only [hcache, FlightCache.outcome?_finish, FlightCache.begun_finish]
    intro f o ho
    split at ho
    · rename_i hf
      exact hf ▸ hr.begun h₀ key flight hl₀
    · exact hr.landed f o ho
  case unstored =>
    simp only [hleads, hcache]
    intro h k f hl
    have hk : k ≠ key := by
      rintro rfl
      exact hl.2 (hr.leader_of_key hl.1 hl₀)
    rw [FlightCache.lookup_finish, if_neg hk]
    exact hr.unstored h k f hl.1

theorem change (hr : r.Sound) (hc : Change r s r') : r'.Sound := by
  cases hc with
  | hit | join => exact hr.congr rfl fun h key flight => by simp [leads_hand]
  | start hs hf => exact hr.start hs hf
  | finish _ hl => exact hr.finish hl _
  | @settle _ h₀ new _ hl hnew =>
    refine hr.congr rfl fun h key flight => ?_
    have hticket : ∀ t, new ≠ .ticket t := by
      rcases hnew with rfl | ⟨f, rfl, -⟩ <;> simp
    rw [leads_settle hticket]
    exact and_iff_left_of_imp fun hlead he => hl key flight (he ▸ hlead)

theorem after (hr : r.Sound) (steps : List (FlightStep K V E)) : (r.after steps).Sound :=
  after_induction change hr steps

theorem start_run : ({} : FlightRun K V E).Sound where
  flying_iff := by simp [Leads, holding]
  keys := List.nodup_nil
  leader := by simp [Leads, holding]
  begun := by simp [Leads, holding]
  aloft := by simp [Leads, holding]
  landed := by simp [FlightCache.outcome?]
  unstored := by simp [Leads, holding]

end Sound

/-! ## Stored values -/

/-- The value that a step stores under a key, if it stores one. -/
def deposit? (r : FlightRun K V E) (key : K) : FlightStep K V E → Option V
  | .insert h v =>
    match r.holding h with
    | .ticket (.first k _) => if k = key then some v else none
    | _ => none
  | _ => none

/-- The values that the steps of a run store under a key, in order. -/
def deposits (key : K) (r : FlightRun K V E) : List (FlightStep K V E) → List V
  | [] => []
  | s :: rest => (r.deposit? key s).toList ++ deposits key (r.step s).2 rest

theorem deposit?_of_leads {h : Nat} {k : K} {flight : Nat} (hs : s.handle? = some h)
    (hl : r.Leads h k flight) (key : K) :
    r.deposit? key s = if key = k then s.ending.value? else none := by
  cases s with
  | insert h' v =>
    obtain rfl : h' = h := Option.some.inj hs
    have hh : r.holding h' = .ticket (.first k flight) := hl
    rw [deposit?, hh]
    simp only [eq_comm]
    rfl
  | get => cases hs
  | fail | drop | wait => exact (ite_self none).symm

theorem deposit?_of_not_leads {h : Nat} (hs : s.handle? = some h)
    (hl : ∀ key flight, ¬ r.Leads h key flight) (key : K) : r.deposit? key s = none := by
  cases s with
  | insert h' v =>
    obtain rfl : h' = h := Option.some.inj hs
    rw [deposit?]
    split
    · rename_i k flight hh
      exact absurd hh (hl k flight)
    · rfl
  | _ => rfl

/-- A step stores a value only where there is none, and changes no other. -/
theorem Change.toList_stored (hc : Change r s r') (hr : r.Sound) (key : K) :
    (r'.cache.stored.lookup key).toList =
      (r.cache.stored.lookup key).toList ++ (r.deposit? key s).toList := by
  cases hc with
  | hit | join | start => simp [deposit?, hand, FlightCache.start]
  | settle hs hl =>
    rw [deposit?_of_not_leads hs hl, Option.toList_none, List.append_nil]
    rfl
  | @finish _ h k flight hs hl =>
    change ((r.cache.finish k flight s.ending).stored.lookup key).toList = _
    rw [deposit?_of_leads hs hl, FlightCache.lookup_finish]
    split
    · rename_i hk
      rw [hk, hr.unstored h k flight hl, Option.or_none]
      rfl
    · rw [Option.toList_none, List.append_nil]

theorem Change.lookup_stored (hc : Change r s r') (hr : r.Sound) {key : K} {v : V}
    (hs : r.cache.stored.lookup key = some v) : r'.cache.stored.lookup key = some v := by
  have hstep := hc.toList_stored hr key
  rw [hs] at hstep
  cases hnew : r'.cache.stored.lookup key with
  | none => simp [hnew] at hstep
  | some v' => simp_all

/-- The values that a run stores under a key are found there: at most one in all. -/
theorem toList_stored_after (hr : r.Sound) (key : K) (steps : List (FlightStep K V E)) :
    ((r.after steps).cache.stored.lookup key).toList =
      (r.cache.stored.lookup key).toList ++ deposits key r steps := by
  induction steps generalizing r with
  | nil => rw [deposits, List.append_nil, after_nil]
  | cons s rest ih =>
    have hc := change_step r s
    rw [after_cons, ih (hr.change hc), hc.toList_stored hr key, deposits, List.append_assoc]

theorem lookup_stored_after (hr : r.Sound) {key : K} {v : V}
    (hs : r.cache.stored.lookup key = some v) (steps : List (FlightStep K V E)) :
    (r.after steps).cache.stored.lookup key = some v := by
  have hboth := after_induction (P := fun r => r.Sound ∧ r.cache.stored.lookup key = some v)
    (fun h hc => ⟨h.1.change hc, hc.lookup_stored h.1 h.2⟩) ⟨hr, hs⟩ steps
  exact hboth.2

/-- An outcome is never changed. -/
theorem Change.outcome? (hc : Change r s r') (hr : r.Sound) {flight : Nat} {outcome : Outcome V E}
    (ho : r.cache.outcome? flight = some outcome) : r'.cache.outcome? flight = some outcome := by
  cases hc with
  | hit | join | start | settle => exact ho
  | finish _ hl =>
    change (r.cache.finish _ _ _).outcome? flight = some outcome
    rw [FlightCache.outcome?_finish, if_neg, ho]
    rintro rfl
    rw [hr.aloft _ _ _ hl] at ho
    cases ho

theorem outcome?_after (hr : r.Sound) {flight : Nat} {outcome : Outcome V E}
    (ho : r.cache.outcome? flight = some outcome) (steps : List (FlightStep K V E)) :
    (r.after steps).cache.outcome? flight = some outcome := by
  have hboth := after_induction
    (P := fun r => r.Sound ∧ r.cache.outcome? flight = some outcome)
    (fun h hc => ⟨h.1.change hc, hc.outcome? h.1 h.2⟩) ⟨hr, ho⟩ steps
  exact hboth.2

/-! ## What callers are told -/

/-- The keys that callers asked for, by handle. -/
def askedKeys (steps : List (FlightStep K V E)) : List K := steps.filterMap (·.key?)

/-- A caller who waits for a flight is about to be told the value under its key, if any. -/
def Promises (r : FlightRun K V E) (key : K) (flight : Nat) : Prop :=
  (key, flight) ∈ r.cache.flying ∨
    ∃ outcome, r.cache.outcome? flight = some outcome ∧
      ∀ v, outcome = .value v → r.cache.stored.lookup key = some v

/-- What the callers of a run have in hand is about the keys that they asked for. -/
structure Truthful (asked : List K) (r : FlightRun K V E) : Prop where
  length : asked.length = r.holdings.length
  stored : ∀ h key v, asked[h]? = some key → r.holding h = .ticket (.stored v) →
    r.cache.stored.lookup key = some v
  waits : ∀ h key flight, asked[h]? = some key → r.Waits h flight → r.Promises key flight

theorem Promises.change {key : K} {flight : Nat} (hp : r.Promises key flight) (hr : r.Sound)
    (hc : Change r s r') : r'.Promises key flight := by
  rcases hp with hf | ⟨o, ho, hv⟩
  · cases hc with
    | hit | join | settle => exact Or.inl hf
    | start => exact Or.inl (List.mem_cons_of_mem _ hf)
    | @finish _ h₀ key₀ flight₀ hs hl =>
      -- the flight that ends is the awaited one, which lands with what is stored, or another
      by_cases he : (key, flight) = (key₀, flight₀)
      · cases he
        refine Or.inr ⟨s.ending, ?_, fun v hv => ?_⟩
        · exact (FlightCache.outcome?_finish _ _ _ _ _).trans (if_pos rfl)
        · refine (FlightCache.lookup_finish _ _ _ _ _).trans ?_
          rw [if_pos rfl, hv]
          rfl
      · refine Or.inl ?_
        change _ ∈ (r.cache.finish key₀ flight₀ s.ending).flying
        rw [FlightCache.flying_finish, List.mem_filter]
        exact ⟨hf, decide_eq_true he⟩
  · exact Or.inr ⟨o, hc.outcome? hr ho, fun v hov => hc.lookup_stored hr (hv v hov)⟩

/-- A caller has a stored value in hand since it asked for it. -/
theorem Change.holds_stored (hc : Change r s r') {h : Nat} {v : V}
    (hh : r'.holding h = .ticket (.stored v)) :
    r.holding h = .ticket (.stored v) ∨
      ∃ key, s = .get key ∧ h = r.holdings.length ∧ r.cache.stored.lookup key = some v := by
  rcases hc.holding_cases h with hsame | hnothing | ⟨_, hpolling, -⟩ | ⟨key, t, hs, hlast, ht, hi⟩
  · exact Or.inl (hsame.symm.trans hh)
  · cases hnothing.symm.trans hh
  · cases hpolling.symm.trans hh
  · cases ht.symm.trans hh
    exact Or.inr ⟨key, hs, hlast, hi⟩

/-- A caller waits for a flight since it joined it. -/
theorem Change.waits (hc : Change r s r') {h flight : Nat} (hw : r'.Waits h flight) :
    r.Waits h flight ∨
      ∃ key, s = .get key ∧ h = r.holdings.length ∧ r.cache.flying.lookup key = some flight := by
  rcases hc.holding_cases h with hsame | hnothing | ⟨f, hpolling, hf⟩ | ⟨key, t, hs, hlast, ht, hi⟩
  · unfold Waits at hw ⊢
    rw [← hsame]
    exact Or.inl hw
  · exact absurd hnothing hw.ne_nothing
  · have hw' : r'.Waits h f := Or.inr hpolling
    rw [hw.eq hw']
    exact Or.inl hf
  · rcases hw with hw | hw <;> cases ht.symm.trans hw
    exact Or.inr ⟨key, hs, hlast, hi⟩

namespace Truthful

variable {asked : List K}

theorem change (ht : r.Truthful asked) (hr : r.Sound) (hc : Change r s r') :
    r'.Truthful (asked ++ s.key?.toList) where
  length := by
    rw [List.length_append, ht.length]
    cases hc with
    | hit | join | start => exact (r.length_hand _ _).symm
    | finish hs | settle hs =>
      rw [FlightStep.key?_eq_none hs]
      exact (r.length_settle _ _ _).symm
  stored := by
    intro h key v hk hh
    rcases hc.holds_stored hh with hold | ⟨key', rfl, rfl, hs⟩
    · have hlt : h < r.holdings.length := lt_length_of_holding (by simp [hold])
      rw [List.getElem?_append_left (ht.length ▸ hlt)] at hk
      exact hc.lookup_stored hr (ht.stored h key v hk hold)
    · rw [← ht.length, List.getElem?_append_right (Nat.le_refl _), Nat.sub_self] at hk
      obtain rfl : key' = key := Option.some.inj hk
      exact hc.lookup_stored hr hs
  waits := by
    intro h key flight hk hw
    rcases hc.waits hw with hold | ⟨key', rfl, rfl, hf⟩
    · have hlt : h < r.holdings.length :=
        lt_length_of_holding (by rcases hold with hold | hold <;> simp [hold])
      rw [List.getElem?_append_left (ht.length ▸ hlt)] at hk
      exact (ht.waits h key flight hk hold).change hr hc
    · rw [← ht.length, List.getElem?_append_right (Nat.le_refl _), Nat.sub_self] at hk
      obtain rfl : key' = key := Option.some.inj hk
      have hp : r.Promises key' flight := Or.inl ((lookup_eq_some_iff_mem hr.keys).mp hf)
      exact hp.change hr hc

theorem after (ht : r.Truthful asked) (hr : r.Sound) (steps : List (FlightStep K V E)) :
    (r.after steps).Truthful (asked ++ askedKeys steps) := by
  induction steps generalizing r asked with
  | nil => simpa [askedKeys] using ht
  | cons s rest ih =>
    have hc := change_step r s
    have hrest := ih (ht.change hr hc) (hr.change hc)
    have hkeys : askedKeys (s :: rest) = s.key?.toList ++ askedKeys rest := by
      unfold askedKeys
      rw [List.filterMap_cons]
      cases s.key? <;> rfl
    rw [hkeys, ← List.append_assoc]
    exact hrest

/-- A caller is told no value but the one under its key. -/
theorem told (ht : r.Truthful asked) (hr : r.Sound) {h : Nat} {key : K} {v : V}
    (hk : asked[h]? = some key) (hw : (r.step (.wait h)).1 = .answered (.value v)) :
    r.cache.stored.lookup key = some v := by
  have hpoll : ∀ flight, r.Waits h flight → (r.poll h flight).1 = .answered (.value v) →
      r.cache.stored.lookup key = some v := by
    intro flight hwaits hp
    rcases ht.waits h key flight hk hwaits with hf | ⟨o, ho, hv⟩
    · -- a flight under way has no outcome yet
      obtain ⟨h', hl⟩ := (hr.flying_iff key flight).mp hf
      simp [poll, hr.aloft h' key flight hl] at hp
    · simp only [poll, ho, FlightReply.answered.injEq] at hp
      exact hv v hp
  cases hh : r.holding h with
  | ticket t =>
    cases t with
    | first k flight => simp [step, hh] at hw
    | waiting flight =>
      simp only [step, hh] at hw
      exact hpoll flight (Or.inl hh) hw
    | stored v' =>
      simp only [step, hh, FlightReply.answered.injEq, Outcome.value.injEq] at hw
      exact hw ▸ ht.stored h key v' hk hh
  | polling flight =>
    simp only [step, hh] at hw
    exact hpoll flight (Or.inr hh) hw
  | nothing => simp [step, hh] at hw

theorem start_run : ({} : FlightRun K V E).Truthful [] where
  length := rfl
  stored := by simp
  waits := by simp

end Truthful

/-! ## Single flight -/

/-- A caller is told to find a value when it is not stored and nobody else is to find it. -/
theorem Sound.get_eq_first_iff (hr : r.Sound) (key : K) :
    (r.step (.get key)).1 = .opened r.holdings.length true ↔
      r.cache.stored.lookup key = none ∧ ∀ h flight, ¬ r.Leads h key flight := by
  have hlive : (∀ h flight, ¬ r.Leads h key flight) ↔ r.cache.flying.lookup key = none := by
    rw [Option.eq_none_iff_forall_not_mem]
    simp only [Option.mem_def, hr.lookup_flying, not_exists]
    exact forall_comm
  rw [hlive]
  cases hs : r.cache.stored.lookup key with
  | some v => simp [step, FlightCache.get, hs, Ticket.isFirst]
  | none =>
    cases hf : r.cache.flying.lookup key with
    | some flight => simp [step, FlightCache.get, hs, hf, Ticket.isFirst]
    | none => simp [step, FlightCache.get, hs, hf, Ticket.isFirst]

/-- What a cache promises to its callers, once they have taken the steps. -/
structure SingleFlight (steps : List (FlightStep K V E)) (r : FlightRun K V E) : Prop where
  /-- A key has at most one first caller. -/
  one : ∀ h h' key flight flight', r.Leads h key flight → r.Leads h' key flight' → h = h'
  /-- The flight under way for a key is that of its first caller, who alone can end it. -/
  flying : ∀ key flight, r.cache.flying.lookup key = some flight ↔ ∃ h, r.Leads h key flight
  own : ∀ h h' key key' flight, r.Leads h key flight → r.Leads h' key' flight → h = h'
  /-- There is none for a stored key. -/
  grounded : ∀ h key flight, r.Leads h key flight → r.cache.stored.lookup key = none
  /-- What is stored stays as it is, whatever callers do next. -/
  kept : ∀ key v more, r.cache.stored.lookup key = some v →
    (r.after more).cache.stored.lookup key = some v
  /-- A caller becomes a first one just where there is neither a value nor a first caller. -/
  first : ∀ key, (r.step (.get key)).1 = .opened r.holdings.length true ↔
    r.cache.stored.lookup key = none ∧ ∀ h flight, ¬ r.Leads h key flight
  /-- The one value that was ever stored for a key is found there. -/
  once : ∀ key, deposits key {} steps = (r.cache.stored.lookup key).toList
  /-- A caller is told no value but that one. -/
  told : ∀ h key v, (askedKeys steps)[h]? = some key →
    (r.step (.wait h)).1 = .answered (.value v) → r.cache.stored.lookup key = some v

/-- The promises are kept whatever the steps are. -/
theorem single_flight (steps : List (FlightStep K V E)) :
    SingleFlight steps (({} : FlightRun K V E).after steps) := by
  have hr : (({} : FlightRun K V E).after steps).Sound := Sound.start_run.after steps
  have ht : (({} : FlightRun K V E).after steps).Truthful (askedKeys steps) :=
    Truthful.start_run.after Sound.start_run steps
  constructor
  case one => exact fun h h' key flight flight' hl hl' => hr.leader_of_key hl hl'
  case flying => exact fun key flight => hr.lookup_flying
  case own => exact hr.leader
  case grounded => exact hr.unstored
  case kept => exact fun key v more hs => lookup_stored_after hr hs more
  case first => exact hr.get_eq_first_iff
  case once => exact fun key => (toList_stored_after Sound.start_run key steps).symm
  case told => exact fun h key v hk hw => ht.told hr hk hw

end QueryShapes.FlightRun
