/-
  The text of a double: the digits are the shortest that read back, and a
  `FloatFormat` decides how they are laid out.
-/
import QueryShapes.Number.Shortest

namespace QueryShapes

/-- How the shortest digits of a double become text. -/
structure FloatFormat where
  /-- Below `10 ^ (least - 1)` a magnitude is written with an exponent. -/
  least : Int
  /-- From `10 ^ most` on a magnitude is written with an exponent. -/
  most : Int
  /-- What stands before a positive exponent. -/
  exponentPlus : String
  /-- Which of two equally near shortest decimals is written. -/
  tie : Tie
  notANumber : String
  positiveInfinity : String
  negativeInfinity : String

namespace FloatFormat

/-- JSON numbers: positional from `1e-5` up to `1e+16`; what is no number is `null`. -/
def json : FloatFormat :=
  ⟨-4, 16, "+", .toEven, "null", "null", "null"⟩

/-- Float literals of a document: positional from `1e-4` up to `1e16`. -/
def document : FloatFormat :=
  ⟨-3, 16, "", .up, "NaN", "inf", "-inf"⟩

/-- Digits with the point after the first `point` of them, padded with zeros where there are
    none; at least one digit stands on each side. -/
def positional (digits : List Char) (point : Int) : List Char :=
  if point ≤ 0 then '0' :: '.' :: (List.replicate (-point).toNat '0' ++ digits)
  else
    let n := point.toNat
    let fraction := digits.drop n
    digits.take n ++ List.replicate (n - digits.length) '0' ++
      '.' :: (if fraction.isEmpty then ['0'] else fraction)

/-- Digits with the point after the first one and a power of ten. -/
def scientific (plus : String) (digits : List Char) (exponent : Int) : List Char :=
  let fraction := digits.drop 1
  digits.take 1 ++ (if fraction.isEmpty then [] else '.' :: fraction) ++
    'e' :: ((if exponent < 0 then ['-'] else plus.toList) ++ exponent.natAbs.repr.toList)

/-- The text of the magnitude of a finite double. -/
def magnitude (f : FloatFormat) (x : Double) : List Char :=
  let d := x.shortest f.tie
  let digits := d.coefficient.repr.toList
  let point : Int := digits.length + d.exponent
  if d.coefficient = 0 then ['0', '.', '0']
  else if f.least ≤ point ∧ point ≤ f.most then positional digits point
  else scientific f.exponentPlus digits (point - 1)

/-- The text of a double. -/
def text (f : FloatFormat) (x : Double) : String :=
  if x.isNaN then f.notANumber
  else if !x.isFinite then (if x.isNegative then f.negativeInfinity else f.positiveInfinity)
  else String.ofList ((if x.isNegative then ['-'] else []) ++ f.magnitude x)

end FloatFormat

end QueryShapes
