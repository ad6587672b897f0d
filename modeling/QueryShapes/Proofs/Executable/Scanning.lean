/-
  Scanning what is written piece by piece.

  `Scans` says which tokens a text is made of, one rule for each way in which
  the scanner goes on.  A piece of text is scanned apart from what stands behind
  it: `Closed` pieces whatever that is, others (`Lexes`) if it does not run on
  from them, like a letter from a name or a digit from a number.
-/
import Mathlib.Data.List.TakeWhile
import QueryShapes.Proofs.Executable.Reading

namespace QueryShapes.Executable

open Sdl (Token)

/-! ## The scanner as a relation -/

/-- The tokens of a text. -/
inductive Scans : List Char → List Token → Prop
  | nil : Scans [] []
  | separator {c : Char} {cs : List Char} {ts : List Token} (hc : isSeparator c = true)
      (h : Scans cs ts) : Scans (c :: cs) ts
  | token {c : Char} {cs rest : List Char} {t : Token} {ts : List Token}
      (hc : isSeparator c = false) (hn : c ≠ '#') (ht : token? (c :: cs) = some (t, rest))
      (hl : rest.length ≤ cs.length) (h : Scans rest ts) : Scans (c :: cs) (t :: ts)

theorem scanWith_of_scans {cs : List Char} {ts : List Token} (h : Scans cs ts) {fuel : Nat}
    (hf : cs.length ≤ fuel) : scanWith fuel cs = some ts := by
  induction h generalizing fuel with
  | nil => simp [scanWith]
  | separator hc h ih =>
    rw [List.length_cons] at hf
    obtain ⟨n, rfl⟩ : ∃ n, fuel = n + 1 := ⟨fuel - 1, by omega⟩
    rw [scanWith, if_pos hc]
    exact ih (by omega)
  | token hc hn ht hl h ih =>
    rw [List.length_cons] at hf
    obtain ⟨n, rfl⟩ : ∃ n, fuel = n + 1 := ⟨fuel - 1, by omega⟩
    rw [scanWith, if_neg (by simp [hc]), if_neg hn, ht]
    simp [ih (by omega : _ ≤ n)]

theorem scan?_of_scans {text : String} {ts : List Token} (h : Scans text.toList ts) :
    scan? text = some ts :=
  scanWith_of_scans h (Nat.le_refl _)

/-! ## Pieces -/

/-- Characters that go on with a name, a number or a string. -/
def runsOn (c : Char) : Bool := Name.isContinue c || c = '.' || c = '"'

/-- The text does not begin with a character that runs on. -/
def Boundary (cs : List Char) : Prop := ∀ c, cs.head? = some c → runsOn c = false

/-- The piece is made of the tokens, whatever stands behind it. -/
def Closed (cs : List Char) (ts : List Token) : Prop :=
  ∀ rest us, Scans rest us → Scans (cs ++ rest) (ts ++ us)

/-- The piece is made of the tokens if nothing runs on from it. -/
def Lexes (cs : List Char) (ts : List Token) : Prop :=
  ∀ rest us, Boundary rest → Scans rest us → Scans (cs ++ rest) (ts ++ us)

section Pieces

variable {as bs cs : List Char} {ts us : List Token}

theorem boundary_nil : Boundary [] := by
  intro c h
  cases h

theorem boundary_cons {c : Char} (h : runsOn c = false) : Boundary (c :: cs) := by
  intro d hd
  cases hd
  exact h

theorem Boundary.append (ha : Boundary as) (hb : Boundary bs) : Boundary (as ++ bs) := by
  cases as with
  | nil => exact hb
  | cons a rest => exact ha

theorem Boundary.append_of_ne_nil (h : Boundary as) (hne : as ≠ []) : Boundary (as ++ bs) := by
  cases as with
  | nil => exact absurd rfl hne
  | cons a rest => exact h

theorem Closed.lexes (h : Closed cs ts) : Lexes cs ts := fun rest us _ => h rest us

theorem closed_nil : Closed [] [] := fun _ _ h => h

theorem Closed.append (ha : Closed as ts) (hb : Closed bs us) : Closed (as ++ bs) (ts ++ us) := by
  intro rest vs h
  rw [List.append_assoc, List.append_assoc]
  exact ha _ _ (hb rest vs h)

theorem Closed.append_lexes (ha : Closed as ts) (hb : Lexes bs us) :
    Lexes (as ++ bs) (ts ++ us) := by
  intro rest vs hr h
  rw [List.append_assoc, List.append_assoc]
  exact ha _ _ (hb rest vs hr h)

theorem Lexes.append (ha : Lexes as ts) (hs : Boundary bs) (hb : Lexes bs us) :
    Lexes (as ++ bs) (ts ++ us) := by
  intro rest vs hr h
  rw [List.append_assoc, List.append_assoc]
  exact ha _ _ (hs.append hr) (hb rest vs hr h)

theorem Lexes.append_closed (ha : Lexes as ts) (hs : Boundary bs) (hne : bs ≠ [])
    (hb : Closed bs us) : Closed (as ++ bs) (ts ++ us) := by
  intro rest vs h
  rw [List.append_assoc, List.append_assoc]
  exact ha _ _ (hs.append_of_ne_nil hne) (hb rest vs h)

/-- A text that is one piece is made of the tokens of the piece. -/
theorem Lexes.scans (h : Lexes cs ts) : Scans cs ts := by
  have hwhole := h [] [] boundary_nil .nil
  rwa [List.append_nil, List.append_nil] at hwhole

end Pieces

/-! ## Separators and marks -/

theorem closed_separators {cs : List Char} (h : cs.all isSeparator = true) : Closed cs [] := by
  induction cs with
  | nil => exact closed_nil
  | cons c cs ih =>
    rw [List.all_cons, Bool.and_eq_true] at h
    intro rest us hrest
    exact .separator h.1 (ih h.2 rest us hrest)

theorem closed_blank : Closed [' '] [] := closed_separators (by decide)

theorem mem_of_isPunctuator {c : Char} (h : Sdl.isPunctuator c = true) :
    c ∈ ['!', '$', '&', '(', ')', ':', '=', '@', '[', ']', '{', '|', '}'] := by
  simpa [Sdl.isPunctuator] using h

theorem runsOn_of_isPunctuator {c : Char} (h : Sdl.isPunctuator c = true) : runsOn c = false := by
  have hall : ['!', '$', '&', '(', ')', ':', '=', '@', '[', ']', '{', '|', '}'].all
      (!runsOn ·) = true := by decide
  have hc := List.all_eq_true.mp hall c (mem_of_isPunctuator h)
  rwa [Bool.not_eq_true'] at hc

theorem closed_mark {c : Char} (h : Sdl.isPunctuator c = true) : Closed [c] [.punctuator c] := by
  intro rest us hrest
  have hread : isSeparator c = false ∧ c ≠ '#' ∧
      token? (c :: rest) = some (.punctuator c, rest) := by
    have hmem := mem_of_isPunctuator h
    simp only [List.mem_cons, List.not_mem_nil, or_false] at hmem
    rcases hmem with rfl | rfl | rfl | rfl | rfl | rfl | rfl | rfl | rfl | rfl | rfl | rfl | rfl
    all_goals exact ⟨by decide, by decide, rfl⟩
  exact .token hread.1 hread.2.1 hread.2.2 (Nat.le_refl _) hrest

theorem closed_spread : Closed ['.', '.', '.'] [.spread] := by
  intro rest us hrest
  have hread : token? ('.' :: '.' :: '.' :: rest) = some (.spread, rest) := rfl
  exact .token (by decide) (by decide) hread (List.suffix_append ['.', '.'] rest).length_le hrest

/-! ## Names -/

/-- What a test takes from the front of a text is not changed by what stands behind it. -/
theorem takeWhile_append_of_stop {p : Char → Bool} (cs : List Char) {rest : List Char}
    (h : ∀ c, rest.head? = some c → p c = false) :
    (cs ++ rest).takeWhile p = cs.takeWhile p ∧
      (cs ++ rest).dropWhile p = cs.dropWhile p ++ rest := by
  induction cs with
  | nil =>
    cases rest with
    | nil => exact ⟨rfl, rfl⟩
    | cons c rest => simp [h c rfl]
  | cons c cs ih =>
    by_cases hc : p c = true
    · simp [hc, ih]
    · simp [hc]

theorem Boundary.isContinue {rest : List Char} (h : Boundary rest) :
    ∀ c, rest.head? = some c → Name.isContinue c = false := by
  intro c hc
  have hc := h c hc
  simp only [runsOn, Bool.or_eq_false_iff] at hc
  exact hc.1.1

theorem token?_of_ne_quote {c : Char} {cs : List Char} (h : c ≠ '"') :
    token? (c :: cs) = Sdl.token? (c :: cs) := by
  unfold token?
  split
  case h_3 => rfl
  all_goals
    rename_i heq
    cases heq
    exact absurd rfl h

theorem token?_name {c : Char} {cs : List Char} (h : Name.isStart c = true) :
    token? (c :: cs) = some (.name (String.ofList (c :: cs.takeWhile Name.isContinue)),
      cs.dropWhile Name.isContinue) := by
  have hquote : c ≠ '"' := by
    rintro rfl
    cases h
  rw [token?_of_ne_quote hquote]
  unfold Sdl.token?
  split <;> rename_i heq <;> cases heq
  case h_5 => rw [if_pos h]
  all_goals cases h

theorem isSeparator_of_isContinue {c : Char} (h : Name.isContinue c = true) :
    isSeparator c = false ∧ c ≠ '#' := by
  constructor
  · refine Bool.eq_false_iff.mpr fun hs => ?_
    simp only [isSeparator, Sdl.isIgnored, Bool.or_eq_true, decide_eq_true_eq] at hs
    rcases hs with ((((rfl | rfl) | rfl) | rfl) | rfl) | rfl <;> cases h
  · rintro rfl
    cases h

/-- A name is read to its end. -/
theorem lexes_name {name : String} (h : Name.isValid name = true) :
    Lexes name.toList [.name name] := by
  intro rest us hr hrest
  cases hname : name.toList with
  | nil => simp [Name.isValid, hname, Name.isValidChars] at h
  | cons c cs =>
    simp only [Name.isValid, hname, Name.isValidChars, Bool.and_eq_true, List.all_eq_true] at h
    obtain ⟨hstart, hall⟩ := h
    obtain ⟨htake, hdrop⟩ := takeWhile_append_of_stop cs hr.isContinue
    rw [List.takeWhile_eq_self_iff.mpr hall] at htake
    rw [List.dropWhile_eq_nil_iff.mpr hall, List.nil_append] at hdrop
    have hread : token? (c :: (cs ++ rest)) = some (.name name, rest) := by
      rw [token?_name hstart, htake, hdrop, ← hname, String.ofList_toList]
    have hcontinue : Name.isContinue c = true := by simp [Name.isContinue, hstart]
    obtain ⟨hsep, hcomment⟩ := isSeparator_of_isContinue hcontinue
    exact .token hsep hcomment hread (List.suffix_append cs rest).length_le hrest

/-- A name with a blank behind it. -/
theorem lexes_word {name : String} (hv : Name.isValid name = true) {cs : List Char}
    {ts : List Token} (h : Lexes cs ts) : Lexes (name.toList ++ ' ' :: cs) (.name name :: ts) := by
  exact (lexes_name hv).append (boundary_cons (by decide)) (closed_blank.append_lexes h)

theorem closed_word {name : String} (hv : Name.isValid name = true) {cs : List Char}
    {ts : List Token} (h : Closed cs ts) :
    Closed (name.toList ++ ' ' :: cs) (.name name :: ts) := by
  exact (lexes_name hv).append_closed (boundary_cons (by decide)) (List.cons_ne_nil _ _)
    (closed_blank.append h)

/-! ## Lists of pieces -/

/-- Pieces one after the other, each of which nothing runs on from. -/
theorem closed_flatMap {α : Type} {text : α → List Char} {tokens : α → List Token}
    {items : List α} (h : ∀ x ∈ items, Closed (text x) (tokens x)) :
    Closed (items.flatMap text) (items.flatMap tokens) := by
  induction items with
  | nil => exact closed_nil
  | cons x rest ih =>
    rw [List.flatMap_cons, List.flatMap_cons]
    exact (h x List.mem_cons_self).append (ih fun y hy => h y (List.mem_cons_of_mem _ hy))

/-- Items with commas between them. -/
theorem lexes_joined {α : Type} {text : α → String} {tokens : α → List Token} {items : List α}
    (h : ∀ x ∈ items, Lexes (text x).toList (tokens x)) :
    Lexes (", ".intercalate (items.map text)).toList (items.flatMap tokens) := by
  rw [String.toList_intercalate]
  induction items with
  | nil => exact closed_nil.lexes
  | cons x rest ih =>
    have hx := h x List.mem_cons_self
    have ih := ih fun y hy => h y (List.mem_cons_of_mem _ hy)
    cases rest with
    | nil => simpa using hx
    | cons y others =>
      have hcomma : Closed ", ".toList [] := closed_separators (by decide)
      have hbehind := hcomma.append_lexes ih
      simp only [List.map_cons, List.flatMap_cons] at hbehind ⊢
      rw [List.intercalate_cons_cons, List.append_assoc]
      exact hx.append (boundary_cons (by decide)) hbehind

end QueryShapes.Executable
