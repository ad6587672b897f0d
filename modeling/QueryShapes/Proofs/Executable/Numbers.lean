/-
  Numbers are read back from their texts.

  A number token is told by its parts (`numberToken_eq_some`): digits that no
  superfluous zero begins, a fraction and an exponent, both of them optional.
  None of the three takes more if something stands behind the number that does
  not run on, unless the number stops short behind the mark of its exponent
  (`numberToken_append`); so a number is the token that it is alone.
-/
import Mathlib.Data.List.TakeWhile
import QueryShapes.Proofs.Executable.Scanning
import QueryShapes.Proofs.Text.Numeral

namespace QueryShapes.Executable

open Sdl (Token)
open Text

variable {rest cs : List Char}

/-! ## The parts of a number -/

theorem Boundary.isDigit (h : Boundary rest) : ∀ c, rest.head? = some c → isDigit c = false := by
  intro c hc
  have hc := h.isContinue c hc
  simp only [Name.isContinue, Bool.or_eq_false_iff] at hc
  exact hc.2

/-- Neither a point nor an exponent stands behind a number. -/
theorem Boundary.behindNumber (h : Boundary rest) :
    Sdl.fraction? rest = some (none, rest) ∧ Sdl.exponent? rest = some (none, rest) ∧
      Sdl.endsNumber rest = true := by
  cases rest with
  | nil => exact ⟨rfl, rfl, rfl⟩
  | cons c rest =>
    have hc := h c rfl
    simp only [runsOn, Bool.or_eq_false_iff, decide_eq_false_iff_not] at hc
    obtain ⟨⟨hcontinue, hpoint⟩, -⟩ := hc
    have he : c ≠ 'e' ∧ c ≠ 'E' := by
      constructor <;> rintro rfl <;> cases hcontinue
    refine ⟨?_, ?_, ?_⟩
    · unfold Sdl.fraction?
      split
      · rename_i heq
        cases heq
        exact absurd rfl hpoint
      · rfl
    · unfold Sdl.exponent?
      simp [he]
    · simp [Sdl.endsNumber, hcontinue, hpoint]

/-- What a reader finds, with more characters behind what it leaves. -/
def followedBy {α : Type} (rest : List Char) (read : Option (α × List Char)) :
    Option (α × List Char) :=
  read.map fun p => (p.1, p.2 ++ rest)

theorem fraction?_append (hr : Boundary rest) (cs : List Char) :
    Sdl.fraction? (cs ++ rest) = followedBy rest (Sdl.fraction? cs) := by
  cases cs with
  | nil => exact hr.behindNumber.1
  | cons c digits =>
    by_cases hc : c = '.'
    · subst hc
      obtain ⟨htake, hdrop⟩ := takeWhile_append_of_stop digits hr.isDigit
      rw [List.cons_append, Sdl.fraction?, htake, hdrop, Sdl.fraction?]
      split <;> rfl
    · have hnone : ∀ others, Sdl.fraction? (c :: others) = some (none, c :: others) := by
        intro others
        unfold Sdl.fraction?
        split
        · rename_i heq
          cases heq
          exact absurd rfl hc
        · rfl
      rw [List.cons_append, hnone, hnone]
      rfl

/-- The sign of an exponent, and what follows it. -/
def signed : List Char → Bool × List Char
  | '-' :: rest => (true, rest)
  | '+' :: rest => (false, rest)
  | rest => (false, rest)

theorem exponent?_cons (c : Char) (digits : List Char) :
    Sdl.exponent? (c :: digits) =
      if c = 'e' || c = 'E' then
        (readDigits? ((signed digits).2.takeWhile isDigit)).map fun n =>
          (some (if (signed digits).1 then -(n : Int) else n),
            (signed digits).2.dropWhile isDigit)
      else some (none, c :: digits) :=
  rfl

theorem signed_append (d : Char) (digits : List Char) :
    signed (d :: digits ++ rest) =
      ((signed (d :: digits)).1, (signed (d :: digits)).2 ++ rest) := by
  by_cases hminus : d = '-'
  · subst hminus
    rfl
  · by_cases hplus : d = '+'
    · subst hplus
      rfl
    · simp [signed, hminus, hplus]

/-- An exponent that ends behind its mark might take its sign from what follows. -/
theorem exponent?_append (hr : Boundary rest)
    (hs : Sdl.exponent? cs = none → signed rest = (false, rest)) :
    Sdl.exponent? (cs ++ rest) = followedBy rest (Sdl.exponent? cs) := by
  cases cs with
  | nil => exact hr.behindNumber.2.1
  | cons c digits =>
    rw [exponent?_cons] at hs ⊢
    rw [List.cons_append, exponent?_cons]
    split
    · rename_i hmark
      have hsigned : signed (digits ++ rest) = ((signed digits).1, (signed digits).2 ++ rest) := by
        cases digits with
        | nil => exact hs (by rw [if_pos hmark]; rfl)
        | cons d digits => exact signed_append d digits
      obtain ⟨htake, hdrop⟩ := takeWhile_append_of_stop (signed digits).2 hr.isDigit
      rw [hsigned, htake, hdrop]
      cases readDigits? ((signed digits).2.takeWhile isDigit) <;> rfl
    · rfl

theorem endsNumber_append (hr : Boundary rest) (cs : List Char) :
    Sdl.endsNumber (cs ++ rest) = Sdl.endsNumber cs := by
  cases cs with
  | nil => exact hr.behindNumber.2.2
  | cons c cs => rfl

/-- The token of a number, given its parts. -/
def numberOf (negative : Bool) (whole : List Char) (fraction : Option (List Char))
    (exponent : Option Int) : Token :=
  match fraction, exponent with
  | none, none => .int (if negative then -(digitsValue whole : Int) else digitsValue whole)
  | _, _ =>
    .float negative (digitsValue (whole ++ fraction.getD []))
      (exponent.getD 0 - (fraction.getD []).length)

/-- Digits that no superfluous zero begins. -/
def IsWhole (digits : List Char) : Prop :=
  digits ≠ [] ∧ (digits.length ≠ 1 → digits.head? ≠ some '0')

/-- What a number token is made of. -/
theorem numberToken_eq_some {negative : Bool} {after : List Char} {t : Token} :
    Sdl.numberToken negative cs = some (t, after) ↔
      IsWhole (cs.takeWhile isDigit) ∧
      ∃ fraction rest exponent, Sdl.fraction? (cs.dropWhile isDigit) = some (fraction, rest) ∧
        Sdl.exponent? rest = some (exponent, after) ∧ Sdl.endsNumber after = true ∧
        t = numberOf negative (cs.takeWhile isDigit) fraction exponent := by
  unfold Sdl.numberToken
  dsimp only
  by_cases hw : cs.takeWhile isDigit = [] ∨
      ((cs.takeWhile isDigit).length ≠ 1 ∧ (cs.takeWhile isDigit).head? = some '0')
  · have hwhole : ¬ IsWhole (cs.takeWhile isDigit) := by
      rintro ⟨hne, hzero⟩
      rcases hw with h | ⟨hl, hz⟩
      · exact hne h
      · exact hzero hl hz
    rw [if_pos hw]
    simp [hwhole]
  · have hwhole : IsWhole (cs.takeWhile isDigit) := by
      rw [not_or, not_and] at hw
      exact hw
    rw [if_neg hw]
    simp only [Option.bind_eq_bind, Option.bind_eq_some_iff, Prod.exists, hwhole, true_and]
    constructor
    · rintro ⟨fraction, rest, hf, exponent, rest', he, h⟩
      split at h
      · cases h
      · rename_i hend
        have h : some (numberOf negative (cs.takeWhile isDigit) fraction exponent, rest') =
            some (t, after) := by
          rw [← h]
          cases fraction <;> cases exponent <;> rfl
        cases h
        exact ⟨fraction, rest, exponent, hf, he, by simpa using hend, rfl⟩
    · rintro ⟨fraction, rest, exponent, hf, he, hend, rfl⟩
      refine ⟨fraction, rest, hf, exponent, after, he, ?_⟩
      rw [if_neg (by simp [hend])]
      cases fraction <;> cases exponent <;> rfl

/-- A number is the same token with something behind it that does not run on, and what is none
    does not become one but by a sign for its exponent. -/
theorem numberToken_append {negative : Bool} (hr : Boundary rest)
    (hs : Sdl.numberToken negative cs = none → signed rest = (false, rest)) :
    Sdl.numberToken negative (cs ++ rest) = followedBy rest (Sdl.numberToken negative cs) := by
  obtain ⟨htake, hdrop⟩ := takeWhile_append_of_stop cs hr.isDigit
  unfold Sdl.numberToken at hs ⊢
  dsimp only at hs ⊢
  rw [htake, hdrop, fraction?_append hr]
  split
  · rfl
  · rename_i hwhole
    rw [if_neg hwhole] at hs
    cases hf : Sdl.fraction? (cs.dropWhile isDigit) with
    | none => rfl
    | some read =>
      obtain ⟨fraction, behind⟩ := read
      rw [hf] at hs
      have hexponent : Sdl.exponent? behind = none → signed rest = (false, rest) := by
        intro he
        exact hs (by simp [he])
      simp only [followedBy, Option.map_some, Option.bind_eq_bind, Option.bind_some,
        exponent?_append hr hexponent]
      cases Sdl.exponent? behind with
      | none => rfl
      | some read =>
        obtain ⟨exponent, after⟩ := read
        simp only [Option.map_some, Option.bind_some, endsNumber_append hr]
        split
        · rfl
        · cases fraction <;> cases exponent <;> rfl

/-- Digits are the token of an integer. -/
theorem numberToken_digits {negative : Bool} {digits : List Char} (hw : IsWhole digits)
    (hd : ∀ c ∈ digits, isDigit c = true) :
    Sdl.numberToken negative digits =
      some (.int (if negative then -(digitsValue digits : Int) else digitsValue digits), []) := by
  rw [numberToken_eq_some, List.takeWhile_eq_self_iff.mpr hd, List.dropWhile_eq_nil_iff.mpr hd]
  exact ⟨hw, none, [], none, rfl, rfl, rfl, rfl⟩

theorem isContinue_of_isDigit {c : Char} (h : isDigit c = true) : Name.isContinue c = true := by
  unfold Name.isContinue
  unfold isDigit at h
  rw [h, Bool.or_true]

/-- The number that a text begins with, behind an optional sign. -/
def number? : List Char → Option (Token × List Char)
  | '-' :: rest => Sdl.numberToken true rest
  | cs => Sdl.numberToken false cs

theorem token?_digit {c : Char} (h : isDigit c = true) :
    token? (c :: cs) = Sdl.numberToken false (c :: cs) := by
  have hrange : '0' ≤ c ∧ c ≤ '9' := by simpa [isDigit] using h
  have hstart : Name.isStart c = false := by
    refine Bool.eq_false_iff.mpr fun hs => ?_
    simp only [Name.isStart, Bool.or_eq_true, Bool.and_eq_true, decide_eq_true_eq] at hs
    rcases hs with (rfl | ⟨hlow, -⟩) | ⟨hlow, -⟩
    · cases h
    · exact absurd (Char.le_trans hlow hrange.2) (by decide)
    · exact absurd (Char.le_trans hlow hrange.2) (by decide)
  have hmark : Sdl.isPunctuator c = false := by
    refine Bool.eq_false_iff.mpr fun hs => ?_
    have hruns := runsOn_of_isPunctuator hs
    simp only [runsOn, Bool.or_eq_false_iff] at hruns
    rw [isContinue_of_isDigit h] at hruns
    cases hruns.1.1
  have hquote : c ≠ '"' := by
    rintro rfl
    cases h
  rw [token?_of_ne_quote hquote]
  unfold Sdl.token?
  split <;> rename_i heq <;> cases heq
  case h_5 => rw [hstart, hmark, if_neg (by decide), if_neg (by decide)]
  all_goals cases h

/-- A number is read to its end. -/
theorem lexes_number {t : Token} (h : number? cs = some (t, [])) : Lexes cs [t] := by
  intro rest us hr hrest
  unfold number? at h
  split at h
  · rename_i digits
    have hread : token? ('-' :: (digits ++ rest)) = some (t, rest) := by
      have happend := numberToken_append hr fun hnone => absurd (h.symm.trans hnone) (by simp)
      rwa [h] at happend
    have hlength := (List.suffix_append digits rest).length_le
    exact .token (by decide) (by decide) hread hlength hrest
  · have hwhole := (numberToken_eq_some.mp h).1.1
    cases cs with
    | nil => exact absurd rfl hwhole
    | cons c digits =>
      have hc : isDigit c = true := by
        by_contra hc
        exact hwhole (List.takeWhile_cons_of_neg hc)
      have hread : token? (c :: (digits ++ rest)) = some (t, rest) := by
        have happend := numberToken_append hr fun hnone => absurd (h.symm.trans hnone) (by simp)
        rwa [h, List.cons_append, ← token?_digit hc] at happend
      have hlength := (List.suffix_append digits rest).length_le
      obtain ⟨hsep, hcomment⟩ := isSeparator_of_isContinue (isContinue_of_isDigit hc)
      exact .token hsep hcomment hread hlength hrest

/-- A text that is the token of a float is a number. -/
theorem number?_of_token? {negative : Bool} {coefficient : Nat} {exponent : Int}
    (h : token? cs = some (.float negative coefficient exponent, [])) :
    number? cs = some (.float negative coefficient exponent, []) := by
  unfold token? at h
  split at h
  · simp at h
  · simp at h
  rename_i hblock hquote
  unfold Sdl.token? at h
  split at h
  · exact absurd rfl (hquote _)
  · cases h
  · cases h
  · exact h
  · rename_i hminus
    split at h
    · cases h
    · split at h
      · cases h
      · unfold number?
        split
        · rename_i heq
          cases heq
          exact absurd rfl hminus
        · exact h
  · cases h

/-! ## Integers -/

/-- The digits of a number do not begin with a zero, unless the number is zero. -/
theorem head_toDigits {n : Nat} (h : 0 < n) : (Nat.toDigits 10 n).head? ≠ some '0' := by
  induction n using Nat.strongRecOn with
  | ind n ih =>
    by_cases hn : n < 10
    · rw [Nat.toDigits_of_lt_base hn]
      have hall : ∀ m < 10, 0 < m → [m.digitChar].head? ≠ some '0' := by decide
      exact hall n hn h
    · rw [Nat.toDigits_of_base_le (by decide) (by omega)]
      have hrest := ih (n / 10) (by omega) (by omega)
      cases hd : Nat.toDigits 10 (n / 10) with
      | nil => exact absurd hd Nat.toDigits_ne_nil
      | cons d digits =>
        rw [hd] at hrest
        exact hrest

theorem isWhole_toDigits (n : Nat) : IsWhole (Nat.toDigits 10 n) := by
  refine ⟨Nat.toDigits_ne_nil, fun hlength => ?_⟩
  have hn : 0 < n := by
    by_contra hn
    rw [Nat.eq_zero_of_not_pos hn] at hlength
    exact hlength rfl
  exact head_toDigits hn

theorem numberToken_toDigits (negative : Bool) (n : Nat) :
    Sdl.numberToken negative (Nat.toDigits 10 n) =
      some (.int (if negative then -(n : Int) else n), []) := by
  rw [numberToken_digits (isWhole_toDigits n) fun c => isDigit_of_mem_toDigits,
    digitsValue_toDigits]

/-- An integer is read back from its text. -/
theorem lexes_integer (i : Int) : Lexes (integer i).toList [.int i] := by
  cases i with
  | ofNat n =>
    have hread : number? (Nat.toDigits 10 n) = some (.int n, []) := by
      have hnumber := numberToken_toDigits false n
      unfold number?
      split
      · rename_i rest heq
        have hminus : '-' ∈ Nat.toDigits 10 n := heq ▸ List.mem_cons_self
        cases isDigit_of_mem_toDigits hminus
      · exact hnumber
    rw [integer, Nat.toList_repr]
    exact lexes_number hread
  | negSucc n =>
    have hread : number? ('-' :: Nat.toDigits 10 (n + 1)) = some (.int (Int.negSucc n), []) :=
      numberToken_toDigits true (n + 1)
    have htext : (integer (Int.negSucc n)).toList = '-' :: Nat.toDigits 10 (n + 1) := by
      rw [integer, String.toList_append, Nat.toList_repr]
      rfl
    rw [htext]
    exact lexes_number hread

end QueryShapes.Executable
