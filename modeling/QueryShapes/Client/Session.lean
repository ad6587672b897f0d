/-
  Sessions: calls of one client, each with the reply that the transport will
  bring if it is asked.
-/
import QueryShapes.Client.Basic

namespace QueryShapes

/-- What is asked of a client.  A caller's type is given by how a value of it is read from JSON
    and written back. -/
inductive Action where
  | compile
  | compileUncached
  | bind
  | execute
  | queryValue
  | query (read : Json → Except String Json)
  | queryUncached (read : Json → Except String Json)

namespace Action

/-- Whether the action compiles anew in any case. -/
def isUncached : Action → Bool
  | compileUncached | queryUncached _ => true
  | _ => false

end Action

/-- One call of a session. -/
structure Call where
  action : Action
  shape : OperationShape
  parameters : Json.Object
  reply : Reply

/-- What a successful call returns. -/
inductive Answer where
  | compiled (query : NumberedQuery)
  | bound (values : Json.Object)
  | response (response : Response)
  | data (response : TypedResponse Json)

/-- What comes of a call: the request, if one is sent, and the result. -/
structure CallRecord where
  request : Option Request
  result : Except QueryError Answer

namespace CallRecord

/-- A call that ends before a request is sent. -/
def unsent (result : Except QueryError Answer) : CallRecord := ⟨none, result⟩

end CallRecord

/-- Sends the request of a compiled operation and reads the reply. -/
def NumberedQuery.send (schema : Schema) (call : Call) (query : NumberedQuery)
    (read : Response → Except QueryError Answer) : CallRecord :=
  match query.query.request schema call.parameters with
  | .error error => .unsent (.error (.execution error))
  | .ok request =>
    ⟨some request, match call.reply with
      | .error reason => .error (.execution (.transport reason))
      | .ok response => read response⟩

/-- What comes of a call once its shape is compiled. -/
def NumberedQuery.perform (schema : Schema) (call : Call) (query : NumberedQuery) : CallRecord :=
  let set := query.query.selectionSet
  let fragments := query.query.fragments
  match call.action with
  | .compile | .compileUncached => .unsent (.ok (.compiled query))
  | .bind =>
    .unsent (match query.query.bind schema call.parameters with
      | .ok values => .ok (.bound values)
      | .error error => .error (.execution error))
  | .execute => query.send schema call fun response => .ok (.response response)
  | .queryValue =>
    query.send schema call fun response =>
      (readResponse (Materialization.materialize schema set fragments) response).map .data
  | .query read | .queryUncached read =>
    query.send schema call fun response =>
      (readResponse (Materialization.materializeAs read schema set fragments) response).map .data

namespace Client

/-- Performs a call. -/
def perform (c : Client) (call : Call) : CallRecord × Client :=
  let (compiled, c) :=
    if call.action.isUncached then c.compileUncached call.shape else c.compile call.shape
  match compiled with
  | .error error => (.unsent (.error (.compile error)), c)
  | .ok query => (query.perform c.schema call, c)

/-- Performs calls one after the other. -/
def performAll (c : Client) : List Call → List CallRecord × Client
  | [] => ([], c)
  | call :: rest =>
    let (record, c) := c.perform call
    let (records, c) := c.performAll rest
    (record :: records, c)

end Client

end QueryShapes
