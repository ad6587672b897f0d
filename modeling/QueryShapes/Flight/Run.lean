/-
  Runs of a flight cache: callers come one after the other, and each holds what
  it got under the number of its call until it gives it back.
-/
import QueryShapes.Flight.Basic

namespace QueryShapes

/-- What a caller does. A caller is known by its handle, the number of its `get`. -/
inductive FlightStep (K V E : Type) where
  | get (key : K)
  | insert (handle : Nat) (v : V)
  | fail (handle : Nat) (e : E)
  | drop (handle : Nat)
  /-- Asks for the outcome, which may still be pending. -/
  | wait (handle : Nat)
deriving DecidableEq, Repr

/-- What a caller has in hand. -/
inductive Holding (K V : Type) where
  | ticket (t : Ticket K V)
  /-- The caller gave its ticket away for the outcome of a flight. -/
  | polling (flight : Nat)
  | nothing
deriving DecidableEq, Repr

/-- What a step tells the caller. -/
inductive FlightReply (V E : Type) where
  | opened (handle : Nat) (first : Bool)
  | done
  /-- The caller has nothing in hand that the step could use. -/
  | gone
  | pending
  | answered (outcome : Outcome V E)
deriving DecidableEq, Repr

/-- A cache with its callers. -/
structure FlightRun (K V E : Type) where
  cache : FlightCache K V E := {}
  holdings : List (Holding K V) := []

namespace FlightRun

variable {K V E : Type} [DecidableEq K]

/-- What is in hand under a handle. -/
def holding (r : FlightRun K V E) (handle : Nat) : Holding K V := r.holdings.getD handle .nothing

/-- Changes what is in hand under a handle, and the cache. -/
def settle (r : FlightRun K V E) (handle : Nat) (h : Holding K V) (cache : FlightCache K V E) :
    FlightRun K V E :=
  ⟨cache, r.holdings.set handle h⟩

/-- Asks for the outcome of a flight. -/
def poll (r : FlightRun K V E) (handle flight : Nat) : FlightReply V E × FlightRun K V E :=
  match r.cache.outcome? flight with
  | some outcome => (.answered outcome, r.settle handle .nothing r.cache)
  | none => (.pending, r.settle handle (.polling flight) r.cache)

/-- One step of a run. -/
def step (r : FlightRun K V E) : FlightStep K V E → FlightReply V E × FlightRun K V E
  | .get key =>
    let (ticket, cache) := r.cache.get key
    (.opened r.holdings.length ticket.isFirst, ⟨cache, r.holdings ++ [.ticket ticket]⟩)
  | .insert handle v =>
    match r.holding handle with
    | .ticket t => (.done, r.settle handle .nothing (r.cache.insert v t))
    | _ => (.gone, r)
  | .fail handle e =>
    match r.holding handle with
    | .ticket t => (.done, r.settle handle .nothing (r.cache.fail e t))
    | _ => (.gone, r)
  | .drop handle =>
    match r.holding handle with
    | .ticket t => (.done, r.settle handle .nothing (r.cache.release t))
    | .polling _ => (.done, r.settle handle .nothing r.cache)
    | .nothing => (.done, r)
  | .wait handle =>
    match r.holding handle with
    | .ticket (.stored v) => (.answered (.value v), r.settle handle .nothing r.cache)
    | .ticket (.waiting flight) => r.poll handle flight
    | .ticket (.first key flight) =>
      (.answered .abandoned, r.settle handle .nothing (r.cache.release (.first key flight)))
    | .polling flight => r.poll handle flight
    | .nothing => (.gone, r)

/-- The run after some steps, with what each of them told. -/
def run (r : FlightRun K V E) : List (FlightStep K V E) → List (FlightReply V E) × FlightRun K V E
  | [] => ([], r)
  | s :: rest =>
    let (reply, r) := r.step s
    let (replies, r) := r.run rest
    (reply :: replies, r)

end FlightRun

end QueryShapes
