/-
  A cache with flights: of the callers that ask for a key which is not stored,
  the first is to find the value, and the others wait for the outcome of its
  flight.

  A flight ends when its first caller stores a value, reports an error or lets
  go.  Only values are stored, and none is ever removed; after an error or an
  abandoned flight the next caller is a first one again.
-/

namespace QueryShapes

/-- How a flight ended. -/
inductive Outcome (V E : Type) where
  | value (v : V)
  | failed (e : E)
  | abandoned
deriving DecidableEq, Repr

/-- What a caller gets for a key. -/
inductive Ticket (K V : Type) where
  /-- The caller is to find the value. -/
  | first (key : K) (flight : Nat)
  /-- Another caller is about to find it. -/
  | waiting (flight : Nat)
  /-- The stored value. -/
  | stored (v : V)
deriving DecidableEq, Repr

/-- Whether the caller is the one to find the value. -/
def Ticket.isFirst {K V : Type} : Ticket K V → Bool
  | first _ _ => true
  | _ => false

/-- The stored values, the flights under way and the outcomes of those that ended. -/
structure FlightCache (K V E : Type) where
  stored : List (K × V) := []
  flying : List (K × Nat) := []
  landed : List (Nat × Outcome V E) := []
  /-- The number of flights that ever began. -/
  begun : Nat := 0

namespace FlightCache

variable {K V E : Type} [DecidableEq K]

/-- The number of stored values. -/
def size (c : FlightCache K V E) : Nat := c.stored.length

/-- Asks for a key. -/
def get (c : FlightCache K V E) (key : K) : Ticket K V × FlightCache K V E :=
  match c.stored.lookup key with
  | some v => (.stored v, c)
  | none =>
    match c.flying.lookup key with
    | some flight => (.waiting flight, c)
    | none =>
      (.first key c.begun, { c with flying := (key, c.begun) :: c.flying, begun := c.begun + 1 })

/-- Ends a flight with an outcome; its key is free from then on. -/
def land (c : FlightCache K V E) (key : K) (flight : Nat) (outcome : Outcome V E) :
    FlightCache K V E :=
  { c with
    flying := c.flying.filter (· ≠ (key, flight))
    landed := (flight, outcome) :: c.landed }

/-- Stores a value under a key. -/
def store (c : FlightCache K V E) (key : K) (v : V) : FlightCache K V E :=
  { c with stored := (key, v) :: c.stored.filter (·.1 ≠ key) }

/-- Gives back a ticket with a value, which a first caller thereby stores. -/
def insert (c : FlightCache K V E) (v : V) : Ticket K V → FlightCache K V E
  | .first key flight => (c.store key v).land key flight (.value v)
  | _ => c

/-- Gives back a ticket with an error, which a first caller thereby reports. -/
def fail (c : FlightCache K V E) (e : E) : Ticket K V → FlightCache K V E
  | .first key flight => c.land key flight (.failed e)
  | _ => c

/-- Gives back a ticket with nothing. -/
def release (c : FlightCache K V E) : Ticket K V → FlightCache K V E
  | .first key flight => c.land key flight .abandoned
  | _ => c

/-- The outcome of a flight, if it has ended. -/
def outcome? (c : FlightCache K V E) (flight : Nat) : Option (Outcome V E) := c.landed.lookup flight

end FlightCache

end QueryShapes
