/-
  The encoded form of constants, type references and paths.
-/
import QueryShapes.FieldType
import QueryShapes.Json.Decoding
import QueryShapes.Literal.Basic
import QueryShapes.Path

namespace QueryShapes

open Json (tagged)

namespace Literal

mutual

def encode : Literal → Json
  | null => .str "Null"
  | int i => tagged "Int" (.int i.toInt)
  | float x => tagged "Float" (Json.ofDouble x)
  | string s => tagged "String" (.str s)
  | boolean b => tagged "Boolean" (.bool b)
  | enum name => tagged "Enum" (.str name)
  | list items => tagged "List" (.arr (encodeItems items))
  | object entries => tagged "Object" (.obj (encodeEntries entries))

def encodeItems : List Literal → List Json
  | [] => []
  | v :: rest => v.encode :: encodeItems rest

def encodeEntries : List (String × Literal) → List (String × Json)
  | [] => []
  | (k, v) :: rest => (k, v.encode) :: encodeEntries rest

end

/-- A constant that holds no other constant. -/
def decodeLeaf? (tag : String) (content : Option Json) : Option Literal :=
  match tag with
  | "Null" => (Json.nothing? content).map fun _ => null
  | "Int" => (content.bind Json.int64?).map fun i => int (Int64.ofInt i)
  | "Float" => (content.bind Json.double?).map float
  | "String" => (content.bind Json.str?).map string
  | "Boolean" => (content.bind Json.bool?).map boolean
  | "Enum" => (content.bind Json.str?).map enum
  | _ => none

mutual

def decode? : Json → Option Literal
  | .str tag => decodeLeaf? tag none
  | .obj [(tag, .arr items)] => if tag = "List" then (decodeItems? items).map list else none
  | .obj [(tag, .obj members)] =>
    if tag = "Object" then (decodeEntries? members).map ofEntries else none
  | .obj [(tag, content)] => decodeLeaf? tag (some content)
  | _ => none

def decodeItems? : List Json → Option (List Literal)
  | [] => some []
  | v :: rest => do return (← decode? v) :: (← decodeItems? rest)

def decodeEntries? : List (String × Json) → Option (List (String × Literal))
  | [] => some []
  | (k, v) :: rest => do return (k, ← decode? v) :: (← decodeEntries? rest)

end

end Literal

namespace FieldType

def encode : FieldType → Json
  | named name => tagged "Named" (.str name)
  | list item => tagged "List" item.encode
  | nonNull inner => tagged "NonNull" inner.encode
  | string => .str "String"
  | int => .str "Int"
  | float => .str "Float"
  | id => .str "Id"
  | boolean => .str "Boolean"

/-- A built-in scalar by its tag. -/
def decodeScalar? : String → Option FieldType
  | "String" => some string
  | "Int" => some int
  | "Float" => some float
  | "Id" => some id
  | "Boolean" => some boolean
  | _ => none

def decode? : Json → Option FieldType
  | .str tag => decodeScalar? tag
  | .obj [(tag, content)] =>
    if tag = "Named" then content.str?.map named
    else if tag = "List" then (decode? content).map list
    else if tag = "NonNull" then (decode? content).map nonNull
    else (Json.nothing? (some content)).bind fun _ => decodeScalar? tag
  | _ => none

end FieldType

namespace PathElement

def encode : PathElement → Json
  | index i => .int i
  | key name => .str name

def decode? : Json → Option PathElement
  | .str name => some (key name)
  | v => (v.nat? 64).map index

end PathElement

namespace Path

def encode (p : Path) : Json := .arr (p.elements.map PathElement.encode)

def decode? (v : Json) : Option Path := (Json.listOf? PathElement.decode? v).map Path.mk

end Path

end QueryShapes
