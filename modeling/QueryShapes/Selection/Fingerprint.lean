/-
  Fingerprints of fragments: the digest of a type condition and the selections
  under it.
-/
import QueryShapes.Digest.Sha256
import QueryShapes.Digest.Stream
import QueryShapes.Selection.Basic

namespace QueryShapes

namespace Digest

def argumentValue : ArgumentValue → Stream
  | .literal v => number 0 ++ literal v
  | .parameter name => number 1 ++ string name
  | .documentVariable name => number 2 ++ string name
  | .default => number 3
  | .unbound => number 4

def fieldArgument (a : FieldArgument) : Stream :=
  string a.name ++ (fieldType a.type ++ (argumentValue a.value ++
    option literal a.declaredDefault))

mutual

/-- A selection: the position of its alternative and its parts in order. -/
def selection : Selection → Stream
  | .field f subs =>
    number 0 ++ (string f.name ++ (option string f.aliasName ++ (string f.parentType ++
      (fieldType f.type ++ (list fieldArgument f.arguments ++
        (number subs.length ++ (selections subs ++ bool f.injected)))))))
  | .spread name condition => number 1 ++ (string name ++ string condition)
  | .inline condition subs =>
    number 2 ++ (string condition ++ (number subs.length ++ selections subs))
  | .marker name condition subs =>
    number 3 ++ (option string name ++ (string condition ++
      (number subs.length ++ selections subs)))

def selections : List Selection → Stream
  | [] => []
  | s :: rest => selection s ++ selections rest

end

/-- The stream of a fragment's content. -/
def fragmentContent (typeCondition : String) (subs : List Selection) : Stream :=
  string typeCondition ++ (number subs.length ++ selections subs)

end Digest

/-- The digest that tells the contents of two fragments apart. -/
def fingerprint (typeCondition : String) (subs : List Selection) : List UInt8 :=
  Digest.sha256 (Digest.fragmentContent typeCondition subs)

end QueryShapes
