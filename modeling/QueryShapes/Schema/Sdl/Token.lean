/-
  Tokens of a definition text.

  Blanks, comments and byte order marks separate tokens and are left out.
  Commas are tokens, though hardly any place minds them.  Numbers may not run
  into a name or into another number.
-/
import QueryShapes.Name
import QueryShapes.Schema.Sdl.BlockString
import QueryShapes.Text.Numeral
import QueryShapes.Text.Quoted
import QueryShapes.Text.Surrogate

namespace QueryShapes.Sdl

open QueryShapes.Text

/-- A token. -/
inductive Token where
  | comma
  | punctuator (c : Char)
  /-- Three dots. -/
  | spread
  | name (word : String)
  | int (value : Int)
  /-- The number `coefficient · 10 ^ exponent`, negated if `negative`. -/
  | float (negative : Bool) (coefficient : Nat) (exponent : Int)
  | string (value : String)
deriving DecidableEq, Repr, Inhabited

/-- Characters that separate tokens. -/
def isIgnored (c : Char) : Bool :=
  c = ' ' || c = '\t' || c = '\n' || c = '\r' || c = '\uFEFF'

def isLineEnd (c : Char) : Bool := c = '\n' || c = '\r'

def isPunctuator (c : Char) : Bool := "!$&():=@[]\x7b|\x7d".toList.contains c

/-! ## Strings -/

/-- The number that hexadecimal digits write. -/
def hexValueOf? (digits : List Char) : Option Nat :=
  digits.foldlM (fun n c => (hexValue? c).map (16 * n + ·)) 0

/-- The number of one or more hexadecimal digits. -/
def hexDigits? : List Char → Option Nat
  | [] => none
  | digits => hexValueOf? digits

/-- The character of a code point. -/
def charOfCode? (n : Nat) : Option Char := if n.isValidChar then some (Char.ofNat n) else none

/-- The character after the letter of a Unicode escape, and what follows it.  It is written as
    hexadecimal digits in braces, as four such digits, or as a surrogate pair of two escapes. -/
def unicodeEscape? : List Char → Option (Char × List Char)
  | '{' :: rest =>
    match rest.dropWhile (· ≠ '}') with
    | _ :: after =>
      ((hexDigits? (rest.takeWhile (· ≠ '}'))).bind charOfCode?).map fun c => (c, after)
    | [] => none
  | a :: b :: c :: d :: rest =>
    match hex4? a b c d, rest with
    | none, _ => none
    | some first, '\\' :: 'u' :: e :: f :: g :: h :: after =>
      if isHighSurrogate first then
        match (hex4? e f g h).filter isLowSurrogate with
        | some second => some (Char.ofNat (pairValue first second), after)
        | none => none
      else (charOfCode? first).map fun c => (c, rest)
    | some first, _ => (charOfCode? first).map fun c => (c, rest)
  | _ => none

/-- An escape takes at least one character. -/
theorem length_lt_of_unicodeEscape? {cs rest : List Char} {c : Char}
    (h : unicodeEscape? cs = some (c, rest)) : rest.length < cs.length := by
  unfold unicodeEscape? at h
  split at h
  · rename_i after
    have hd := (List.dropWhile_sublist (· ≠ '}') (l := after)).length_le
    split at h
    · rename_i heq
      rw [heq] at hd
      simp only [List.length_cons] at hd
      obtain ⟨_, _, h⟩ := Option.map_eq_some_iff.1 h
      simp only [Prod.mk.injEq] at h
      simp only [← h.2, List.length_cons]
      omega
    · cases h
  · split at h
    · cases h
    · split at h
      · split at h <;> simp_all
        omega
      · obtain ⟨_, _, h⟩ := Option.map_eq_some_iff.1 h
        simp only [Prod.mk.injEq] at h
        simp only [← h.2, List.length_cons]
        omega
    · obtain ⟨_, _, h⟩ := Option.map_eq_some_iff.1 h
      simp only [Prod.mk.injEq] at h
      simp only [← h.2, List.length_cons]
      omega
  · cases h

/-- The characters up to the closing quote of a string on one line; `acc` holds those before,
    last first. -/
def stringBody (acc : List Char) : List Char → Option (String × List Char)
  | '"' :: rest => some (String.ofList acc.reverse, rest)
  | '\\' :: 'u' :: rest =>
    match _h : unicodeEscape? rest with
    | some (c, after) => stringBody (c :: acc) after
    | none => none
  | '\\' :: c :: rest =>
    match escaped? c with
    | some e => stringBody (e :: acc) rest
    | none => none
  | c :: rest => if isLineEnd c then none else stringBody (c :: acc) rest
  | [] => none
termination_by cs => cs.length
decreasing_by
  all_goals simp only [List.length_cons]
  · have := length_lt_of_unicodeEscape? _h
    omega
  all_goals omega

/-- The characters up to the closing triple quote, which a backslash keeps from closing. -/
def blockBody (acc : List Char) : List Char → Option (List Char × List Char)
  | '\\' :: '"' :: '"' :: '"' :: rest => blockBody ('"' :: '"' :: '"' :: acc) rest
  | '"' :: '"' :: '"' :: rest => some (acc.reverse, rest)
  | c :: rest => blockBody (c :: acc) rest
  | [] => none

/-- A string token after its first quote.  A line may end right behind the quote, and nowhere
    else in a string on one line. -/
def stringToken : List Char → Option (Token × List Char)
  | '"' :: '"' :: rest => (blockBody [] rest).map fun (cs, r) => (.string (blockValue cs), r)
  | c :: rest =>
    (if isLineEnd c then stringBody [c] rest else stringBody [] (c :: rest)).map
      fun (s, r) => (.string s, r)
  | [] => none

/-! ## Numbers -/

/-- The digits after a point, if there is one: at least one digit follows it. -/
def fraction? : List Char → Option (Option (List Char) × List Char)
  | '.' :: rest =>
    if (rest.takeWhile isDigit).isEmpty then none
    else some (some (rest.takeWhile isDigit), rest.dropWhile isDigit)
  | rest => some (none, rest)

/-- The exponent after its mark, if there is one. -/
def exponent? : List Char → Option (Option Int × List Char)
  | [] => some (none, [])
  | c :: rest =>
    if c = 'e' || c = 'E' then
      let (negative, digits) := match rest with
        | '-' :: r => (true, r)
        | '+' :: r => (false, r)
        | r => (false, r)
      (readDigits? (digits.takeWhile isDigit)).map fun n =>
        (some (if negative then -(n : Int) else n), digits.dropWhile isDigit)
    else some (none, c :: rest)

/-- Whether a number may end before these characters. -/
def endsNumber : List Char → Bool
  | [] => true
  | c :: _ => !(c = '.' || Name.isContinue c)

/-- A number token after its sign: no superfluous zero begins it. -/
def numberToken (negative : Bool) (cs : List Char) : Option (Token × List Char) := do
  let whole := cs.takeWhile isDigit
  if whole = [] ∨ (whole.length ≠ 1 ∧ whole.head? = some '0') then none
  let (fraction, rest) ← fraction? (cs.dropWhile isDigit)
  let (exponent, rest) ← exponent? rest
  if !endsNumber rest then none
  match fraction, exponent with
  | none, none =>
    let n : Int := digitsValue whole
    return (.int (if negative then -n else n), rest)
  | _, _ =>
    let digits := fraction.getD []
    return (.float negative (digitsValue (whole ++ digits)) (exponent.getD 0 - digits.length), rest)

/-! ## Texts -/

/-- The token at the beginning of the characters, the first of which separates nothing. -/
def token? : List Char → Option (Token × List Char)
  | '"' :: rest => stringToken rest
  | ',' :: rest => some (.comma, rest)
  | '.' :: '.' :: '.' :: rest => some (.spread, rest)
  | '-' :: rest => numberToken true rest
  | c :: rest =>
    if Name.isStart c then
      some (.name (String.ofList (c :: rest.takeWhile Name.isContinue)),
        rest.dropWhile Name.isContinue)
    else if isPunctuator c then some (.punctuator c, rest)
    else numberToken false (c :: rest)
  | [] => none

/-- The tokens of a text; every one takes one unit of fuel, and so does what separates them. -/
def tokensWith : Nat → List Char → Option (List Token)
  | _, [] => some []
  | 0, _ :: _ => none
  | fuel + 1, c :: rest =>
    if isIgnored c then tokensWith fuel rest
    else if c = '#' then tokensWith fuel (rest.dropWhile (!isLineEnd ·))
    else do
      let (token, rest) ← token? (c :: rest)
      return token :: (← tokensWith fuel rest)

/-- The tokens of a text, if it is made of tokens. -/
def tokens? (cs : List Char) : Option (List Token) := tokensWith cs.length cs

end QueryShapes.Sdl
