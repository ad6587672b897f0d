/-
  The cache of a client cannot be told from what its calls come to.

  A call finds its compiled operation in the cache, or compiles its shape and stores
  what it makes, or compiles it regardless of the cache (`Call.ServedBy`).  What is
  stored is what compiling the shape anew would make, for each shape that was compiled
  so far and for no other (`Client.Coherent`); every call keeps this.  So a session
  comes to the same with the cache as without it (`cache_transparent`).
-/
import Mathlib.Data.List.Dedup
import QueryShapes.Client.Session
import QueryShapes.Proofs.Compilation
import QueryShapes.Proofs.Flight.Changes

namespace QueryShapes

open Extraction

/-! ## Calls by themselves -/

/-- The answer without the number of its compilation. -/
def Answer.unnumbered : Answer → Answer
  | compiled query => compiled { query with number := 0 }
  | answer => answer

/-- What comes of a call, without the number of its compilation. -/
def CallRecord.unnumbered (record : CallRecord) : CallRecord :=
  { record with result := record.result.map Answer.unnumbered }

namespace Call

/-- Whether the operation of the call may be shared with other calls. -/
def isShared (call : Call) : Bool := !call.action.isUncached

/-- What comes of the call once its shape is compiled, or is not. -/
def conclude (schema : Schema) (call : Call) : Except CompileError NumberedQuery → CallRecord
  | .error error => .unsent (.error (.compile error))
  | .ok query => query.perform schema call

/-- What comes of the call if its shape is compiled for it alone. -/
def alone (schema : Schema) (settings : Settings) (call : Call) : CallRecord :=
  (call.conclude schema ((compile schema settings call.shape).map (⟨0, ·⟩))).unnumbered

/-- The number of the compilation does not matter. -/
theorem conclude_numbered (schema : Schema) (call : Call) (number : Nat)
    (result : Except CompileError CompiledQuery) :
    (call.conclude schema (result.map (⟨number, ·⟩))).unnumbered =
      (call.conclude schema (result.map (⟨0, ·⟩))).unnumbered := by
  cases result with
  | error e => rfl
  | ok query =>
    change (NumberedQuery.perform schema call ⟨number, query⟩).unnumbered =
      (NumberedQuery.perform schema call ⟨0, query⟩).unnumbered
    unfold NumberedQuery.perform
    cases call.action <;> rfl

end Call

/-! ## What a call does to a client -/

/-- How the flight of a compilation ends. -/
def landing (number : Nat) :
    Except CompileError CompiledQuery → Outcome NumberedQuery CompileError
  | .ok query => .value ⟨number, query⟩
  | .error error => .failed error

/-- How a call comes by its compiled operation, and the client after it. -/
inductive Call.ServedBy (call : Call) (c : Client) :
    Except CompileError NumberedQuery → Client → Prop
  /-- The operation is stored. -/
  | hit {query : NumberedQuery} (hshared : call.isShared = true)
      (hs : c.cache.stored.lookup call.shape.key = some query) :
    ServedBy call c (.ok query) c
  /-- The shape is compiled, and what is made is stored. -/
  | miss {result : Except CompileError CompiledQuery} (hshared : call.isShared = true)
      (hs : c.cache.stored.lookup call.shape.key = none)
      (hr : compile c.schema c.settings call.shape = result) :
    ServedBy call c (result.map (⟨c.compilations, ·⟩))
      { c with
        cache := (c.cache.start call.shape.key).finish call.shape.key c.cache.begun
          (landing c.compilations result)
        compilations := c.compilations + 1 }
  /-- The shape is compiled, and the cache is left alone. -/
  | anew {result : Except CompileError CompiledQuery} (hshared : call.isShared = false)
      (hr : compile c.schema c.settings call.shape = result) :
    ServedBy call c (result.map (⟨c.compilations, ·⟩))
      { c with compilations := c.compilations + 1 }

/-- The operation of a call, and the client that made it. -/
def Client.serve (c : Client) (call : Call) : Except CompileError NumberedQuery × Client :=
  if call.action.isUncached then c.compileUncached call.shape else c.compile call.shape

theorem Client.perform_eq (c : Client) (call : Call) :
    c.perform call =
      (call.conclude (c.serve call).2.schema (c.serve call).1, (c.serve call).2) := by
  unfold Client.perform Client.serve
  generalize (if call.action.isUncached = true then c.compileUncached call.shape
    else c.compile call.shape) = served
  obtain ⟨error | query, c'⟩ := served <;> rfl

theorem Client.compile_of_lookup {c : Client} {shape : OperationShape} {query : NumberedQuery}
    (hcache : c.settings.cacheEnabled = true)
    (hs : c.cache.stored.lookup shape.key = some query) : c.compile shape = (.ok query, c) := by
  simp [Client.compile, hcache, FlightCache.get, hs]

theorem Client.compile_of_lookup_none {c : Client} {shape : OperationShape}
    (hcache : c.settings.cacheEnabled = true) (hidle : c.cache.flying = [])
    (hs : c.cache.stored.lookup shape.key = none) :
    c.compile shape =
      ((QueryShapes.compile c.schema c.settings shape).map (⟨c.compilations, ·⟩),
        { c with
          cache := (c.cache.start shape.key).finish shape.key c.cache.begun
            (landing c.compilations (QueryShapes.compile c.schema c.settings shape))
          compilations := c.compilations + 1 }) := by
  have hget : c.cache.get shape.key =
      (.first shape.key c.cache.begun, c.cache.start shape.key) := by
    simp [FlightCache.get, FlightCache.start, hs, hidle]
  simp only [Client.compile, hcache, Bool.not_true, Bool.false_eq_true, if_false, hget,
    Client.compileFirst, Client.compileUncached]
  cases QueryShapes.compile c.schema c.settings shape <;> rfl

/-- Every call of a client with a cache is served in one of the ways. -/
theorem Client.serve_servedBy {c : Client} (hcache : c.settings.cacheEnabled = true)
    (hidle : c.cache.flying = []) (call : Call) :
    call.ServedBy c (c.serve call).1 (c.serve call).2 := by
  unfold Client.serve
  cases hu : call.action.isUncached with
  | true =>
    have hshared : call.isShared = false := by rw [Call.isShared, hu, Bool.not_true]
    exact .anew hshared rfl
  | false =>
    have hshared : call.isShared = true := by rw [Call.isShared, hu, Bool.not_false]
    rw [if_neg Bool.false_ne_true]
    cases hs : c.cache.stored.lookup call.shape.key with
    | some query =>
      rw [Client.compile_of_lookup hcache hs]
      exact .hit hshared hs
    | none =>
      rw [Client.compile_of_lookup_none hcache hidle hs]
      exact .miss hshared hs rfl

namespace Call.ServedBy

variable {call : Call} {c c' : Client} {result : Except CompileError NumberedQuery}

theorem schema_eq (h : call.ServedBy c result c') : c'.schema = c.schema := by
  cases h <;> rfl

theorem settings_eq (h : call.ServedBy c result c') : c'.settings = c.settings := by
  cases h <;> rfl

/-- The client is idle again after the call. -/
theorem idle (h : call.ServedBy c result c') (hidle : c.cache.flying = []) :
    c'.cache.flying = [] := by
  cases h with
  | hit | anew => exact hidle
  | miss =>
    refine (FlightCache.flying_finish _ _ _ _).trans ?_
    simp [FlightCache.start, hidle]

/-- What is stored stays stored. -/
theorem lookup_stored (h : call.ServedBy c result c') {key : ShapeKey} {query : NumberedQuery}
    (hs : c.cache.stored.lookup key = some query) :
    c'.cache.stored.lookup key = some query := by
  cases h with
  | hit | anew => exact hs
  | miss _ hnone =>
    refine (FlightCache.lookup_finish _ _ _ _ _).trans ?_
    rw [if_neg]
    · exact hs
    · rintro rfl
      rw [hs] at hnone
      cases hnone

theorem compilations_eq (h : call.ServedBy c result c') :
    c'.compilations = c.compilations +
      if call.isShared = false ∨ c.cache.stored.lookup call.shape.key = none then 1 else 0 := by
  cases h with
  | hit hshared hs => simp [hshared, hs]
  | miss _ hs => simp [hs]
  | anew hshared => simp [hshared]

end Call.ServedBy

/-! ## What a client keeps -/

/-- What holds of a client with a cache after some calls. -/
structure Client.Coherent (schema : Schema) (settings : Settings) (done : List Call)
    (c : Client) : Prop where
  schema_eq : c.schema = schema
  settings_eq : c.settings = settings
  caching : c.settings.cacheEnabled = true
  idle : c.cache.flying = []
  nodup : (c.cache.stored.map Prod.fst).Nodup
  /-- What is stored was compiled for one of the calls. -/
  stored : ∀ key query, c.cache.stored.lookup key = some query →
    ∃ call ∈ done, call.isShared = true ∧ call.shape.key = key ∧
      QueryShapes.compile schema settings call.shape = .ok query.query
  /-- What was compiled for one of them is stored. -/
  kept : ∀ call ∈ done, call.isShared = true → ∀ query,
    QueryShapes.compile schema settings call.shape = .ok query →
      ∃ found, c.cache.stored.lookup call.shape.key = some found

/-- Calls whose shapes are the same if their keys are. -/
def KeyedApart (calls : List Call) : Prop :=
  ∀ a ∈ calls, ∀ b ∈ calls, a.shape.key = b.shape.key → a.shape = b.shape

/-- The calls of a session, each with the client as it was when the call began. -/
def Client.history (c : Client) : List Call → List (Client × Call)
  | [] => []
  | call :: rest => (c, call) :: (c.perform call).2.history rest

/-- Whether the call could be shared, and finds nothing in the cache. -/
def Client.misses (p : Client × Call) : Bool :=
  p.2.isShared && (p.1.cache.stored.lookup p.2.shape.key).isNone

/-- Whether the call has an operation to share. -/
def Call.shares (schema : Schema) (settings : Settings) (call : Call) : Bool :=
  call.isShared && (compile schema settings call.shape).isOk

namespace Client.Coherent

variable {schema : Schema} {settings : Settings} {done : List Call} {call : Call} {c c' : Client}
  {result : Except CompileError NumberedQuery}

theorem start (schema : Schema) (hcache : settings.cacheEnabled = true) :
    Coherent schema settings [] { schema := schema, settings := settings } where
  schema_eq := rfl
  settings_eq := rfl
  caching := hcache
  idle := rfl
  nodup := List.nodup_nil
  stored := by simp
  kept := by simp

/-- A call that changes nothing in the cache, and has nothing to share that is not there. -/
theorem same (hc : c.Coherent schema settings done) (h : call.ServedBy c result c')
    (hcache : c'.cache = c.cache)
    (hkept : call.isShared = true → ∀ query,
      QueryShapes.compile schema settings call.shape = .ok query →
        ∃ found, c.cache.stored.lookup call.shape.key = some found) :
    c'.Coherent schema settings (done ++ [call]) where
  schema_eq := h.schema_eq.trans hc.schema_eq
  settings_eq := h.settings_eq.trans hc.settings_eq
  caching := h.settings_eq ▸ hc.caching
  idle := h.idle hc.idle
  nodup := hcache ▸ hc.nodup
  stored := by
    intro key query hs
    rw [hcache] at hs
    obtain ⟨call', hmem, hcall⟩ := hc.stored key query hs
    exact ⟨call', List.mem_append_left _ hmem, hcall⟩
  kept := by
    intro call' hmem hshared query hr
    rw [hcache]
    rcases List.mem_append.mp hmem with hold | hnew
    · exact hc.kept call' hold hshared query hr
    · obtain rfl := List.mem_singleton.mp hnew
      exact hkept hshared query hr

/-- A call that compiles its shape and stores what it makes. -/
theorem landed (hc : c.Coherent schema settings done) {cache : QueryCache}
    {made : Except CompileError CompiledQuery} (hshared : call.isShared = true)
    (hs : c.cache.stored.lookup call.shape.key = none)
    (hr : QueryShapes.compile schema settings call.shape = made)
    (hcache : cache = (c.cache.start call.shape.key).finish call.shape.key c.cache.begun
      (landing c.compilations made))
    (h : call.ServedBy c result { c with cache := cache, compilations := c.compilations + 1 }) :
    Coherent schema settings (done ++ [call])
      { c with cache := cache, compilations := c.compilations + 1 } where
  schema_eq := hc.schema_eq
  settings_eq := hc.settings_eq
  caching := hc.caching
  idle := h.idle hc.idle
  nodup := by
    rw [hcache]
    exact FlightCache.nodup_keys_finish (c.cache.start call.shape.key) _ _ _ hc.nodup
  stored := by
    intro key query hq
    change cache.stored.lookup key = some query at hq
    rw [hcache, FlightCache.lookup_finish] at hq
    split at hq
    · rename_i hkey
      change (landing c.compilations made).value?.or
        (c.cache.stored.lookup call.shape.key) = some query at hq
      rw [hs, Option.or_none] at hq
      cases made with
      | error e => cases hq
      | ok q =>
        cases hq
        exact ⟨call, List.mem_append_right _ (List.mem_singleton_self _), hshared, hkey.symm, hr⟩
    · obtain ⟨call', hmem, hcall⟩ := hc.stored key query hq
      exact ⟨call', List.mem_append_left _ hmem, hcall⟩
  kept := by
    intro call' hmem hshared' query hr'
    rcases List.mem_append.mp hmem with hold | hnew
    · obtain ⟨found, hfound⟩ := hc.kept call' hold hshared' query hr'
      exact ⟨found, h.lookup_stored hfound⟩
    · obtain rfl := List.mem_singleton.mp hnew
      obtain rfl : made = .ok query := hr.symm.trans hr'
      change ∃ found, cache.stored.lookup call'.shape.key = some found
      rw [hcache, FlightCache.lookup_finish, if_pos rfl]
      exact ⟨_, rfl⟩

/-- Every call keeps the client coherent. -/
theorem served (hc : c.Coherent schema settings done) (h : call.ServedBy c result c') :
    c'.Coherent schema settings (done ++ [call]) := by
  have hserved := h
  cases h with
  | hit hshared hs => exact hc.same hserved rfl fun _ _ _ => ⟨_, hs⟩
  | anew hshared =>
    refine hc.same hserved rfl fun htrue => ?_
    rw [hshared] at htrue
    cases htrue
  | miss hshared hs hr =>
    rw [hc.schema_eq, hc.settings_eq] at hr
    exact hc.landed hshared hs hr rfl hserved

/-- However a call is served, it comes to what it would come to by itself. -/
theorem conclude (hc : c.Coherent schema settings done) (h : call.ServedBy c result c')
    (hkeys : KeyedApart (done ++ [call])) :
    (call.conclude schema result).unnumbered = call.alone schema settings := by
  unfold Call.alone
  cases h with
  | miss _ _ hr | anew _ hr =>
    rw [hc.schema_eq, hc.settings_eq] at hr
    rw [hr]
    exact call.conclude_numbered schema c.compilations _
  | @hit query _ hs =>
    obtain ⟨call', hmem, -, hkey, hr⟩ := hc.stored _ _ hs
    have hshape : call'.shape = call.shape :=
      hkeys call' (List.mem_append_left _ hmem) call
        (List.mem_append_right _ (List.mem_singleton_self _)) hkey
    rw [← hshape, hr]
    exact call.conclude_numbered schema query.number (.ok query.query)

theorem serve (hc : c.Coherent schema settings done) (call : Call) :
    call.ServedBy c (c.serve call).1 (c.serve call).2 :=
  serve_servedBy hc.caching hc.idle call

theorem perform (hc : c.Coherent schema settings done) (call : Call) :
    (c.perform call).2.Coherent schema settings (done ++ [call]) := by
  rw [perform_eq]
  exact hc.served (hc.serve call)

theorem record (hc : c.Coherent schema settings done) (call : Call)
    (hkeys : KeyedApart (done ++ [call])) :
    (c.perform call).1.unnumbered = call.alone schema settings := by
  have h := hc.serve call
  rw [perform_eq, h.schema_eq, hc.schema_eq]
  exact hc.conclude h hkeys

/-! ## Sessions -/

theorem performAll (hc : c.Coherent schema settings done) (calls : List Call) :
    (c.performAll calls).2.Coherent schema settings (done ++ calls) := by
  induction calls generalizing c done with
  | nil => rwa [List.append_nil]
  | cons call rest ih =>
    have hrest := ih (hc.perform call)
    rwa [List.append_assoc] at hrest

theorem of_mem_history (hc : c.Coherent schema settings done) {calls : List Call}
    {p : Client × Call} (hp : p ∈ c.history calls) :
    ∃ done', p.1.Coherent schema settings done' := by
  induction calls generalizing c done with
  | nil => cases hp
  | cons call rest ih =>
    rcases List.mem_cons.mp hp with rfl | hrest
    · exact ⟨done, hc⟩
    · exact ih (hc.perform call) hrest

/-- Calls one after the other come to what each of them comes to by itself. -/
theorem records (hc : c.Coherent schema settings done) (calls : List Call)
    (hkeys : KeyedApart (done ++ calls)) :
    (c.performAll calls).1.map (·.unnumbered) = calls.map (·.alone schema settings) := by
  induction calls generalizing c done with
  | nil => rfl
  | cons call rest ih =>
    have hkeys' : KeyedApart ((done ++ [call]) ++ rest) := by rwa [List.append_assoc]
    have hcall : KeyedApart (done ++ [call]) := fun a ha b hb =>
      hkeys' a (List.mem_append_left _ ha) b (List.mem_append_left _ hb)
    change (c.perform call).1.unnumbered :: ((c.perform call).2.performAll rest).1.map _ = _
    rw [hc.record call hcall, ih (hc.perform call) hkeys', List.map_cons]

theorem compilations (hc : c.Coherent schema settings done) (calls : List Call) :
    (c.performAll calls).2.compilations =
      c.compilations + (calls.countP (·.action.isUncached) + (c.history calls).countP misses) := by
  induction calls generalizing c done with
  | nil => rfl
  | cons call rest ih =>
    have hone : (c.perform call).2.compilations = c.compilations +
        if call.isShared = false ∨ c.cache.stored.lookup call.shape.key = none then 1 else 0 := by
      rw [perform_eq]
      exact (hc.serve call).compilations_eq
    change ((c.perform call).2.performAll rest).2.compilations = _
    rw [ih (hc.perform call), hone, history, List.countP_cons, List.countP_cons]
    -- the call is an uncached one, finds nothing, or finds its operation
    cases hu : call.action.isUncached <;> cases hs : c.cache.stored.lookup call.shape.key <;>
      simp [misses, Call.isShared, hu, hs] <;> omega

theorem mem_keys_iff (hc : c.Coherent schema settings done) (key : ShapeKey) :
    key ∈ c.cache.stored.map Prod.fst ↔
      key ∈ (done.filter (Call.shares schema settings)).map (·.shape.key) := by
  rw [List.mem_map, List.mem_map]
  constructor
  · rintro ⟨⟨key, query⟩, hq, rfl⟩
    obtain ⟨call, hcall, hshared, hkey, hr⟩ :=
      hc.stored key query ((lookup_eq_some_iff_mem hc.nodup).mpr hq)
    have hshares : call.shares schema settings = true := by
      rw [Call.shares, hshared, hr]
      rfl
    exact ⟨call, List.mem_filter.mpr ⟨hcall, hshares⟩, hkey⟩
  · rintro ⟨call, hcall, rfl⟩
    obtain ⟨hdone, hshares⟩ := List.mem_filter.mp hcall
    rw [Call.shares, Bool.and_eq_true] at hshares
    cases hr : QueryShapes.compile schema settings call.shape with
    | error e =>
      rw [hr] at hshares
      cases hshares.2
    | ok query =>
      obtain ⟨found, hfound⟩ := hc.kept call hdone hshares.1 query hr
      exact ⟨(_, found), (lookup_eq_some_iff_mem hc.nodup).mp hfound, rfl⟩

theorem cachedShapes_eq (hc : c.Coherent schema settings done) :
    c.cachedShapes =
      ((done.filter (Call.shares schema settings)).map (·.shape.key)).dedup.length := by
  have hperm : (c.cache.stored.map Prod.fst).Perm
      ((done.filter (Call.shares schema settings)).map (·.shape.key)).dedup := by
    rw [List.perm_ext_iff_of_nodup hc.nodup (List.nodup_dedup _)]
    intro key
    rw [List.mem_dedup]
    exact hc.mem_keys_iff key
  rw [cachedShapes, FlightCache.size, ← hperm.length_eq, List.length_map]

end Client.Coherent

/-- The same client without its cache. -/
def Client.uncaching (c : Client) : Client :=
  { c with settings := { c.settings with cacheEnabled := false } }

/-- Calls of a client without a cache come to what they come to by themselves. -/
theorem Client.records_of_disabled {c : Client} (hcache : c.settings.cacheEnabled = false)
    (calls : List Call) :
    (c.performAll calls).1.map (·.unnumbered) = calls.map (·.alone c.schema c.settings) := by
  induction calls generalizing c with
  | nil => rfl
  | cons call rest ih =>
    have hserve : c.serve call = c.compileUncached call.shape := by
      unfold Client.serve Client.compile
      rw [hcache]
      exact ite_self _
    have hperform : c.perform call = (call.conclude c.schema (c.compileUncached call.shape).1,
        (c.compileUncached call.shape).2) := by
      rw [Client.perform_eq, hserve]
      rfl
    have hrest := ih (c := (c.compileUncached call.shape).2) hcache
    change (c.perform call).1.unnumbered :: ((c.perform call).2.performAll rest).1.map _ = _
    rw [hperform, hrest, List.map_cons]
    exact congrArg (· :: _) (call.conclude_numbered c.schema c.compilations _)

/-- What a session comes to on a client with a cache. -/
structure Client.Transparent (c : Client) (calls : List Call) : Prop where
  /-- Every call comes to the same as on the client without its cache: the same request or
      none, and the same answer or error. -/
  records : (c.performAll calls).1.map (·.unnumbered) =
    (c.uncaching.performAll calls).1.map (·.unnumbered)
  /-- Shapes are compiled by the calls that do so in any case, and by those that find nothing. -/
  compilations : (c.performAll calls).2.compilations =
    calls.countP (·.action.isUncached) + (c.history calls).countP misses
  /-- As many operations are stored as there are keys of calls with one to share. -/
  cachedShapes : (c.performAll calls).2.cachedShapes =
    ((calls.filter (Call.shares c.schema c.settings)).map (·.shape.key)).dedup.length
  /-- What is stored is left as it was, whether the call succeeds or fails. -/
  kept : ∀ before call, (before, call) ∈ c.history calls → ∀ key query,
    before.cache.stored.lookup key = some query →
      (before.perform call).2.cache.stored.lookup key = some query

/-- The cache of a client is transparent to sessions in which shapes with one key are equal. -/
theorem cache_transparent (schema : Schema) (settings : Settings)
    (hcache : settings.cacheEnabled = true) (calls : List Call) (hkeys : KeyedApart calls) :
    ({ schema := schema, settings := settings } : Client).Transparent calls := by
  have hc := Client.Coherent.start schema hcache
  constructor
  case records =>
    rw [hc.records calls hkeys, Client.records_of_disabled rfl]
    rfl
  case compilations => rw [hc.compilations calls, Nat.zero_add]
  case cachedShapes => exact (hc.performAll calls).cachedShapes_eq
  case kept =>
    intro before call hp key query hs
    obtain ⟨done, hbefore⟩ := hc.of_mem_history hp
    rw [Client.perform_eq]
    exact (hbefore.serve call).lookup_stored hs

/-- The hero is compiled, asked for without its parameters, and compiled once more. -/
def heroSession : List Call :=
  [⟨.compile, heroShape, [], .error "unreachable"⟩, ⟨.execute, heroShape, [], .error "unreachable"⟩,
    ⟨.compileUncached, heroShape, [], .error "unreachable"⟩]

theorem keyedApart_heroSession : KeyedApart heroSession := by
  have hshape : ∀ call ∈ heroSession, call.shape = heroShape := by simp [heroSession]
  intro a ha b hb _
  rw [hshape a ha, hshape b hb]

/-- The session comes to the same without the cache, which keeps the one hero. -/
theorem cache_transparent_hero :
    let c : Client := { schema := heroSchema, settings := {} }
    c.settings.cacheEnabled = true ∧ KeyedApart heroSession ∧
      c.Transparent heroSession ∧ (c.performAll heroSession).2.cachedShapes = 1 := by
  intro c
  have h := cache_transparent heroSchema {} rfl heroSession keyedApart_heroSession
  have hok : (compile c.schema c.settings heroShape).isOk = true := by
    rw [compile_hero]
    rfl
  refine ⟨rfl, keyedApart_heroSession, h, ?_⟩
  rw [h.cachedShapes]
  simp [heroSession, Call.shares, Call.isShared, Action.isUncached, hok, c]

end QueryShapes
