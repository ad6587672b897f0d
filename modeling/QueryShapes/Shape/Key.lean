/-
  The key of a shape: the digest of its byte stream.
-/
import QueryShapes.Digest.Sha256
import QueryShapes.Digest.Stream
import QueryShapes.Shape.Basic

namespace QueryShapes

namespace Digest

def argumentInput : ArgumentInput → Stream
  | .literal v => number 0 ++ literal v
  | .parameter name => number 1 ++ string name

def namedInput (p : String × ArgumentInput) : Stream := string p.1 ++ argumentInput p.2

def operationKind : OperationKind → Stream
  | .query => number 0
  | .mutation => number 1

def fieldRequest (f : FieldRequest) : Stream :=
  string f.name ++ option string f.aliasName ++ list argumentInput f.positional ++
    list namedInput f.named

def fragmentHead (f : FragmentHead) : Stream := option string f.name ++ string f.onType

mutual

/-- A field is alternative 0 of a member, followed by an optional sub-selection: none, members
    of its own (alternative 0) or a fragment (alternative 1). -/
def member : Member → Stream
  | .leaf f => number 0 ++ (fieldRequest f ++ number 0)
  | .nested f ms =>
    number 0 ++ (fieldRequest f ++ (number 1 ++ (number 0 ++ (number ms.length ++ members ms))))
  | .reusing f g ms =>
    number 0 ++ (fieldRequest f ++
      (number 1 ++ (number 1 ++ (fragmentHead g ++ (number ms.length ++ members ms)))))
  | .spread g ms => number 1 ++ (fragmentHead g ++ (number ms.length ++ members ms))
  | .narrowed condition ms => number 2 ++ (string condition ++ (number ms.length ++ members ms))

def members : List Member → Stream
  | [] => []
  | m :: rest => member m ++ members rest

end

/-- The stream of a whole shape, under a heading of its own. -/
def operationShape (s : OperationShape) : Stream :=
  string "^shape" ++ (operationKind s.kind ++ (option string s.name ++
    (list string s.parameters ++ (number s.members.length ++ members s.members))))

end Digest

/-- The key under which compilations of a shape are shared. -/
structure ShapeKey where
  bytes : List UInt8
deriving DecidableEq, Repr, Inhabited

/-- The key as 64 hexadecimal digits. -/
def ShapeKey.text (k : ShapeKey) : String := Digest.hex k.bytes

/-- The key of a shape. -/
def OperationShape.key (s : OperationShape) : ShapeKey :=
  ⟨Digest.sha256 (Digest.operationShape s)⟩

end QueryShapes
