/-
  Compact JSON text: no blanks, members in their order.
-/
import QueryShapes.Json.Basic
import QueryShapes.Number.FloatText
import QueryShapes.Text.Numeral
import QueryShapes.Text.Quoted

namespace QueryShapes.Json

mutual

/-- The compact text of a value. -/
def text : Json → String
  | null => "null"
  | bool true => "true"
  | bool false => "false"
  | int i => Text.integer i
  | float x => FloatFormat.json.text x
  | str s => Text.quoted s
  | arr items => "[" ++ Text.joined "," (textItems items) ++ "]"
  | obj members => "\x7b" ++ Text.joined "," (textMembers members) ++ "\x7d"

def textItems : List Json → List String
  | [] => []
  | v :: rest => v.text :: textItems rest

def textMembers : List (String × Json) → List String
  | [] => []
  | (k, v) :: rest => (Text.quoted k ++ ":" ++ v.text) :: textMembers rest

end

end QueryShapes.Json
