/-
  Reading JSON text.

  A numeral without point and exponent is an integer when it lies between
  `-2 ^ 63` and `2 ^ 64 - 1` and is not `-0`; every other numeral is the nearest
  double.  A key that an object repeats keeps its first position and takes the
  last value.  Every reader returns what it read and the characters that follow.
-/
import QueryShapes.Json.Basic
import QueryShapes.Text.Numeral
import QueryShapes.Text.Quoted
import QueryShapes.Text.Surrogate

namespace QueryShapes.Json.Reader

open QueryShapes.Text

/-- What a reader yields: a value and the rest of the input. -/
abbrev Result (α : Type) := Option (α × List Char)

def isBlank (c : Char) : Bool := c = ' ' || c = '\n' || c = '\t' || c = '\r'

def skipBlanks (cs : List Char) : List Char := cs.dropWhile isBlank

/-! ## Strings -/

/-- The characters up to the closing quote; `acc` holds those before, last first. -/
def stringBody (acc : List Char) : List Char → Result String
  | '"' :: rest => some (String.ofList acc.reverse, rest)
  | '\\' :: 'u' :: a :: b :: c :: d :: '\\' :: 'u' :: e :: f :: g :: h :: rest =>
    match hex4? a b c d with
    | none => none
    | some first =>
      if isHighSurrogate first then
        match hex4? e f g h with
        | some second =>
          if isLowSurrogate second then
            stringBody (Char.ofNat (pairValue first second) :: acc) rest
          else none
        | none => none
      else if isLowSurrogate first then none
      else stringBody (Char.ofNat first :: acc) ('\\' :: 'u' :: e :: f :: g :: h :: rest)
  | '\\' :: 'u' :: a :: b :: c :: d :: rest =>
    match hex4? a b c d with
    | none => none
    | some first =>
      if isHighSurrogate first || isLowSurrogate first then none
      else stringBody (Char.ofNat first :: acc) rest
  | '\\' :: c :: rest =>
    match escaped? c with
    | some e => stringBody (e :: acc) rest
    | none => none
  | c :: rest => if c.toNat < 32 then none else stringBody (c :: acc) rest
  | [] => none

/-! ## Numbers -/

/-- The exponent part of a numeral: none is zero. -/
def exponentPart : List Char → Result Int
  | c :: rest =>
    if c = 'e' || c = 'E' then
      let (negative, digits) := match rest with
        | '-' :: r => (true, r)
        | '+' :: r => (false, r)
        | r => (false, r)
      match readDigits? (digits.takeWhile isDigit) with
      | some n => some (if negative then -(n : Int) else n, digits.dropWhile isDigit)
      | none => none
    else some (0, c :: rest)
  | [] => some (0, [])

/-- The numeral of a value that lies in no integer range. -/
def wideInteger (negative : Bool) (n : Nat) : Json :=
  if negative then
    if n = 0 ∨ 0x8000000000000000 < n then float (Double.ofDecimal true n 0) else int (-(n : Int))
  else if n ≤ maxIndex then int n
  else float (Double.ofDecimal false n 0)

/-- A numeral after its sign. -/
def numeral (negative : Bool) (cs : List Char) : Result Json :=
  let whole := cs.takeWhile isDigit
  let rest := cs.dropWhile isDigit
  if whole = [] ∨ (whole.length ≠ 1 ∧ whole.head? = some '0') then none
  else
    let fraction? : Option (List Char × List Char) := match rest with
      | '.' :: r =>
        if (r.takeWhile isDigit).isEmpty then none else some (r.takeWhile isDigit, r.dropWhile isDigit)
      | r => some ([], r)
    match fraction? with
    | none => none
    | some (fraction, rest) =>
      match exponentPart rest with
      | none => none
      | some (exponent, after) =>
        if fraction.isEmpty && after.length == rest.length then
          some (wideInteger negative (digitsValue whole), after)
        else
          let coefficient := digitsValue (whole ++ fraction)
          some (float (Double.ofDecimal negative coefficient (exponent - fraction.length)), after)

/-! ## Values -/

mutual

/-- A value, after blanks.  Each level of nesting and each element takes one unit of fuel. -/
def value : Nat → List Char → Result Json
  | 0, _ => none
  | fuel + 1, cs =>
    match skipBlanks cs with
    | 'n' :: 'u' :: 'l' :: 'l' :: rest => some (null, rest)
    | 't' :: 'r' :: 'u' :: 'e' :: rest => some (bool true, rest)
    | 'f' :: 'a' :: 'l' :: 's' :: 'e' :: rest => some (bool false, rest)
    | '"' :: rest => (stringBody [] rest).map fun (s, r) => (str s, r)
    | '[' :: rest =>
      match skipBlanks rest with
      | ']' :: r => some (arr [], r)
      | _ => (items fuel rest).map fun (vs, r) => (arr vs, r)
    | '{' :: rest =>
      match skipBlanks rest with
      | '}' :: r => some (obj [], r)
      | _ => (members fuel rest).map fun (ms, r) => (obj (Entries.ofPairs ms), r)
    | '-' :: rest => numeral true rest
    | rest => numeral false rest

/-- The items of an array up to its closing bracket. -/
def items : Nat → List Char → Result (List Json)
  | 0, _ => none
  | fuel + 1, cs =>
    match value fuel cs with
    | none => none
    | some (v, rest) =>
      match skipBlanks rest with
      | ',' :: r => (items fuel r).map fun (vs, r) => (v :: vs, r)
      | ']' :: r => some ([v], r)
      | _ => none

/-- The members of an object up to its closing brace. -/
def members : Nat → List Char → Result (List (String × Json))
  | 0, _ => none
  | fuel + 1, cs =>
    match skipBlanks cs with
    | '"' :: rest =>
      match stringBody [] rest with
      | none => none
      | some (k, rest) =>
        match skipBlanks rest with
        | ':' :: rest =>
          match value fuel rest with
          | none => none
          | some (v, rest) =>
            match skipBlanks rest with
            | ',' :: r => (members fuel r).map fun (ms, r) => ((k, v) :: ms, r)
            | '}' :: r => some ([(k, v)], r)
            | _ => none
        | _ => none
    | _ => none

end

end QueryShapes.Json.Reader

namespace QueryShapes.Json

/-- The value written by a text, which holds nothing else but blanks. -/
def ofText? (text : String) : Option Json :=
  let cs := text.toList
  match Reader.value (cs.length + 1) cs with
  | some (v, rest) => if (Reader.skipBlanks rest).isEmpty then some v else none
  | none => none

end QueryShapes.Json
