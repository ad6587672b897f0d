/-
  Clients: compiling shapes, shared by key where the settings allow it, and
  running the compiled operations against a server.
-/
import QueryShapes.Exchange.Execution
import QueryShapes.Flight.Basic
import QueryShapes.Materialization

namespace QueryShapes

/-- Why a call of a client fails. -/
inductive QueryError where
  | compile (error : CompileError)
  | execution (error : ExecutionError)
  | materialize (error : MaterializeError)
  /-- The server answered without data. -/
  | server (errors : List ServerError)

/-- The text of the error. -/
def QueryError.message : QueryError → String
  | compile error => error.message
  | execution error => error.message
  | materialize error => error.message
  | server errors =>
    "the server returned no data: " ++ Text.joined ", " (errors.map (·.message))

/-- A compiled operation and the number of the compilation that made it. -/
structure NumberedQuery where
  number : Nat
  query : CompiledQuery
deriving Inhabited

/-- The cache of compiled operations. -/
abbrev QueryCache := FlightCache ShapeKey NumberedQuery CompileError

/-- A client. -/
structure Client where
  schema : Schema
  settings : Settings
  cache : QueryCache := {}
  /-- How often a shape was compiled, failures included. -/
  compilations : Nat := 0

namespace Client

/-- Compiles a shape anew. -/
def compileUncached (c : Client) (shape : OperationShape) :
    Except CompileError NumberedQuery × Client :=
  ((compile c.schema c.settings shape).map (⟨c.compilations, ·⟩),
    { c with compilations := c.compilations + 1 })

/-- Compiles a shape for the first caller of its key, and hands the result to the cache. -/
def compileFirst (c : Client) (shape : OperationShape) (ticket : Ticket ShapeKey NumberedQuery) :
    Except CompileError NumberedQuery × Client :=
  let (result, c) := c.compileUncached shape
  match result with
  | .ok query => (result, { c with cache := c.cache.insert query ticket })
  | .error error => (result, { c with cache := c.cache.fail error ticket })

/-- Compiles a shape, unless an operation is stored under its key.  Calls follow each other, so
    no flight of an earlier call is under way; a ticket to wait would compile anew. -/
def compile (c : Client) (shape : OperationShape) : Except CompileError NumberedQuery × Client :=
  if !c.settings.cacheEnabled then c.compileUncached shape
  else
    let (ticket, cache) := c.cache.get shape.key
    let c := { c with cache := cache }
    match ticket with
    | .stored query => (.ok query, c)
    | .first _ _ | .waiting _ => c.compileFirst shape ticket

/-- The number of operations that are stored. -/
def cachedShapes (c : Client) : Nat := c.cache.size

end Client

/-- What a server answered, with its data in the caller's type. -/
structure TypedResponse (α : Type) where
  data : α
  errors : List ServerError

/-- The error of a response with neither data nor errors. -/
def emptyResponseError : ServerError := { message := "response contains neither data nor errors" }

/-- Materializes the data of a response, if there is any. -/
def readResponse {α : Type} (materialize : Json → Except MaterializeError α)
    (response : Response) : Except QueryError (TypedResponse α) :=
  match response.data with
  | none | some .null =>
    .error (.server (if response.errors.isEmpty then [emptyResponseError] else response.errors))
  | some data =>
    match materialize data with
    | .ok value => .ok ⟨value, response.errors⟩
    | .error error => .error (.materialize error)

end QueryShapes
