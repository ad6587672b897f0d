/-
  Requests and responses as they are exchanged with a server.
-/
import QueryShapes.Json.Basic
import QueryShapes.Path

namespace QueryShapes

/-- What a server is asked. -/
structure Request where
  query : String
  operationName : Option String
  variableValues : Json.Object

/-- A place in a document. -/
structure Location where
  line : Nat
  column : Nat
deriving DecidableEq, Repr

/-- An error that a server reports. -/
structure ServerError where
  message : String
  locations : List Location := []
  /-- The field of the data that the error is about. -/
  path : Option Path := none
  extensions : Json.Object := []

/-- What a server answers. -/
structure Response where
  data : Option Json := none
  errors : List ServerError := []
  extensions : Json.Object := []

namespace Response

/-- A response with data and nothing else. -/
def ofData (data : Json) : Response := { data := some data }

/-- A response with errors and nothing else. -/
def ofErrors (errors : List ServerError) : Response := { errors := errors }

/-- Whether there is no data at all, `null` included. -/
def hasNoData (r : Response) : Bool :=
  match r.data with
  | none | some .null => true
  | some _ => false

end Response

end QueryShapes
