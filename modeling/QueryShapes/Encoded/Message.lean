/-
  The encoded form of requests, responses and server errors.  Members that are
  empty or absent are not written.
-/
import QueryShapes.Encoded.Literal
import QueryShapes.Exchange.Message

namespace QueryShapes

open Json (recordWith? field? optionalField? fieldOr? listOf?)

/-- A member that is written if there is something to write. -/
def memberIf (present : Bool) (name : String) (value : Json) : List (String × Json) :=
  if present then [(name, value)] else []

/-- A member that is written if there is a value. -/
def memberOf {α : Type} (name : String) (f : α → Json) : Option α → List (String × Json)
  | some a => [(name, f a)]
  | none => []

namespace Request

def encode (r : Request) : Json :=
  .obj (("query", .str r.query) :: memberOf "operationName" Json.str r.operationName ++
    memberIf (!r.variableValues.isEmpty) "variables" (.obj r.variableValues))

/-- Absent variables and `null` are no variables. -/
def decode? (v : Json) : Option Request := do
  let fields ← recordWith? ["query", "operationName", "variables"] 1 v
  let values ← optionalField? fields "variables" Json.obj?
  return ⟨← field? fields "query" Json.str?, ← optionalField? fields "operationName" Json.str?,
    values.getD []⟩

end Request

namespace Location

def encode (l : Location) : Json := .obj [("line", .int l.line), ("column", .int l.column)]

def decode? (v : Json) : Option Location := do
  let fields ← Json.record? ["line", "column"] v
  return ⟨← field? fields "line" (Json.nat? 32), ← field? fields "column" (Json.nat? 32)⟩

end Location

namespace ServerError

def encode (e : ServerError) : Json :=
  .obj (("message", .str e.message) ::
    memberIf (!e.locations.isEmpty) "locations" (.arr (e.locations.map Location.encode)) ++
    memberOf "path" Path.encode e.path ++
    memberIf (!e.extensions.isEmpty) "extensions" (.obj e.extensions))

def decode? (v : Json) : Option ServerError := do
  let fields ← recordWith? ["message", "locations", "path", "extensions"] 3 v
  return ⟨← field? fields "message" Json.str?,
    ← fieldOr? fields "locations" [] (listOf? Location.decode?),
    ← optionalField? fields "path" Path.decode?, ← fieldOr? fields "extensions" [] Json.obj?⟩

end ServerError

namespace Response

def encode (r : Response) : Json :=
  .obj (memberOf "data" (fun v => v) r.data ++
    memberIf (!r.errors.isEmpty) "errors" (.arr (r.errors.map ServerError.encode)) ++
    memberIf (!r.extensions.isEmpty) "extensions" (.obj r.extensions))

/-- Data that is `null` is absent. -/
def decode? (v : Json) : Option Response := do
  let fields ← recordWith? ["data", "errors", "extensions"] 0 v
  return ⟨← optionalField? fields "data" some,
    ← fieldOr? fields "errors" [] (listOf? ServerError.decode?),
    ← fieldOr? fields "extensions" [] Json.obj?⟩

end Response

end QueryShapes
