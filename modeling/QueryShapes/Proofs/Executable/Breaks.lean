/-
  Scanning past a break: the tokens of a text do not depend on which separators
  stand between its lines.

  A line is `Unbroken` if it has no line feed and all its quotes belong to quoted
  strings.  A token that begins in it ends in it, and is the same whatever break
  stands behind the line (`token?_break`, `token?_quoted`).  So texts that are
  scanned alike are scanned alike behind one line, too (`ScannedAlike.append`).
-/
import QueryShapes.Proofs.Executable.Constants

namespace QueryShapes.Executable

open Sdl (Token)
open Text

/-! ## Tokens before a break -/

/-- Nothing, or characters of which the first separates tokens. -/
def Broken (cs : List Char) : Prop := ∀ c, cs.head? = some c → isSeparator c = true

theorem broken_nil : Broken [] := by
  intro c h
  cases h

theorem broken_append {cs : List Char} (h : cs.all isSeparator = true) (hne : cs ≠ [])
    (rest : List Char) : Broken (cs ++ rest) := by
  intro d hd
  cases cs with
  | nil => exact absurd rfl hne
  | cons c cs =>
    cases hd
    rw [List.all_cons, Bool.and_eq_true] at h
    exact h.1

section Appending

variable {rest : List Char}

theorem Broken.boundary (h : Broken rest) : Boundary rest := by
  intro c hc
  have hsep := h c hc
  simp only [isSeparator, Sdl.isIgnored, Bool.or_eq_true, decide_eq_true_eq] at hsep
  rcases hsep with ((((rfl | rfl) | rfl) | rfl) | rfl) | rfl <;> decide

theorem Broken.signed (h : Broken rest) : signed rest = (false, rest) := by
  cases rest with
  | nil => rfl
  | cons c rest =>
    have hsep := h c rfl
    unfold Executable.signed
    split
    · rename_i heq
      cases heq
      cases hsep
    · rename_i heq
      cases heq
      cases hsep
    · rfl

/-- No token begins with a dot but the three of a spread. -/
theorem token?_dot {cs : List Char} (h : ∀ after, cs ≠ '.' :: '.' :: after) :
    token? ('.' :: cs) = none := by
  rw [token?_of_ne_quote (by decide)]
  unfold Sdl.token?
  split <;> rename_i heq <;> cases heq
  · exact absurd rfl (h _)
  · rfl

theorem Broken.ne_dots (hr : Broken rest) {cs : List Char}
    (h : ∀ after, cs ≠ '.' :: '.' :: after) (after : List Char) :
    cs ++ rest ≠ '.' :: '.' :: after := by
  intro heq
  match cs, h with
  | [], _ =>
    rw [List.nil_append] at heq
    cases hr '.' (by rw [heq]; rfl)
  | [c], _ =>
    cases heq
    cases hr '.' rfl
  | c :: d :: others, h =>
    cases heq
    exact h others rfl

/-- The token at a character that begins no string and no dots. -/
theorem token?_of_ne_dot {c : Char} (hq : c ≠ '"') (hd : c ≠ '.') (cs : List Char) :
    token? (c :: cs) =
      if c = ',' then some (.comma, cs)
      else if c = '-' then Sdl.numberToken true cs
      else if Name.isStart c then
        some (.name (String.ofList (c :: cs.takeWhile Name.isContinue)),
          cs.dropWhile Name.isContinue)
      else if Sdl.isPunctuator c then some (.punctuator c, cs)
      else Sdl.numberToken false (c :: cs) := by
  rw [token?_of_ne_quote hq]
  unfold Sdl.token?
  split <;> rename_i heq <;> cases heq <;> simp_all

theorem token?_break (hr : Broken rest) {c : Char} (hq : c ≠ '"') (cs : List Char) :
    token? (c :: (cs ++ rest)) = followedBy rest (token? (c :: cs)) := by
  by_cases hd : c = '.'
  · subst hd
    by_cases hdots : ∃ after, cs = '.' :: '.' :: after
    · obtain ⟨after, rfl⟩ := hdots
      rfl
    · have hne : ∀ after, cs ≠ '.' :: '.' :: after := fun after heq => hdots ⟨after, heq⟩
      rw [token?_dot hne, token?_dot (hr.ne_dots hne)]
      rfl
  · obtain ⟨htake, hdrop⟩ := takeWhile_append_of_stop cs hr.boundary.isContinue
    rw [token?_of_ne_dot hq hd, token?_of_ne_dot hq hd, htake, hdrop,
      numberToken_append hr.boundary fun _ => hr.signed, ← List.cons_append,
      numberToken_append hr.boundary fun _ => hr.signed]
    repeat' split
    all_goals rfl

end Appending

/-! ## What a token takes -/

/-- The second text is the first one without some characters in front, none of them a quote. -/
def Drops (cs after : List Char) : Prop := ∃ front, cs = front ++ after ∧ '"' ∉ front

section Taking

variable {cs after : List Char}

theorem drops_self (cs : List Char) : Drops cs cs := ⟨[], rfl, List.not_mem_nil⟩

theorem Drops.cons {c : Char} (hc : c ≠ '"') (h : Drops cs after) : Drops (c :: cs) after := by
  obtain ⟨front, rfl, hfront⟩ := h
  refine ⟨c :: front, rfl, ?_⟩
  rw [List.mem_cons, not_or]
  exact ⟨hc.symm, hfront⟩

theorem Drops.trans {behind : List Char} (h : Drops cs after) (h' : Drops after behind) :
    Drops cs behind := by
  obtain ⟨front, rfl, hfront⟩ := h
  obtain ⟨middle, rfl, hmiddle⟩ := h'
  refine ⟨front ++ middle, (List.append_assoc ..).symm, ?_⟩
  rw [List.mem_append, not_or]
  exact ⟨hfront, hmiddle⟩

theorem drops_dropWhile {p : Char → Bool} (hp : p '"' = false) (cs : List Char) :
    Drops cs (cs.dropWhile p) := by
  refine ⟨cs.takeWhile p, List.takeWhile_append_dropWhile.symm, fun hmem => ?_⟩
  rw [List.mem_takeWhile_imp hmem] at hp
  cases hp

theorem Drops.length_le (h : Drops cs after) : after.length ≤ cs.length := by
  obtain ⟨front, rfl, -⟩ := h
  exact (List.suffix_append front after).length_le

theorem drops_of_fraction? {fraction : Option (List Char)}
    (h : Sdl.fraction? cs = some (fraction, after)) : Drops cs after := by
  unfold Sdl.fraction? at h
  split at h
  · split at h <;> cases h
    exact (drops_dropWhile (by decide) _).cons (by decide)
  · cases h
    exact drops_self _

theorem drops_signed (cs : List Char) : Drops cs (signed cs).2 := by
  unfold signed
  split
  · exact (drops_self _).cons (by decide)
  · exact (drops_self _).cons (by decide)
  · exact drops_self _

theorem drops_of_exponent? {exponent : Option Int}
    (h : Sdl.exponent? cs = some (exponent, after)) : Drops cs after := by
  cases cs with
  | nil =>
    cases h
    exact drops_self _
  | cons c digits =>
    rw [exponent?_cons] at h
    split at h
    · rename_i hmark
      have hc : c ≠ '"' := by
        rintro rfl
        cases hmark
      obtain ⟨_, -, heq⟩ := Option.map_eq_some_iff.mp h
      cases heq
      exact ((drops_signed digits).trans (drops_dropWhile (by decide) _)).cons hc
    · cases h
      exact drops_self _

/-- A number takes its first character at least. -/
theorem drops_of_numberToken {negative : Bool} {t : Token}
    (h : Sdl.numberToken negative cs = some (t, after)) :
    ∃ c digits, cs = c :: digits ∧ c ≠ '"' ∧ Drops digits after := by
  obtain ⟨⟨hne, -⟩, fraction, behind, exponent, hfraction, hexponent, -, -⟩ :=
    numberToken_eq_some.mp h
  have hbehind := (drops_of_fraction? hfraction).trans (drops_of_exponent? hexponent)
  cases cs with
  | nil => exact absurd rfl hne
  | cons c digits =>
    have hc : isDigit c = true := by
      by_contra hc
      exact hne (List.takeWhile_cons_of_neg hc)
    have hquote : c ≠ '"' := by
      rintro rfl
      cases hc
    rw [List.dropWhile_cons_of_pos hc] at hbehind
    exact ⟨c, digits, rfl, hquote, (drops_dropWhile (by decide) digits).trans hbehind⟩

/-- A token that begins with no quote takes no quote. -/
theorem drops_of_token? {c : Char} (hq : c ≠ '"') {t : Token}
    (h : token? (c :: cs) = some (t, after)) : Drops cs after := by
  by_cases hd : c = '.'
  · subst hd
    by_cases hdots : ∃ others, cs = '.' :: '.' :: others
    · obtain ⟨others, rfl⟩ := hdots
      cases h
      exact ((drops_self _).cons (by decide)).cons (by decide)
    · rw [token?_dot fun others heq => hdots ⟨others, heq⟩] at h
      cases h
  · rw [token?_of_ne_dot hq hd] at h
    split at h
    · cases h
      exact drops_self _
    split at h
    · obtain ⟨_, _, rfl, hquote, hdrops⟩ := drops_of_numberToken h
      exact hdrops.cons hquote
    split at h
    · cases h
      exact drops_dropWhile (by decide) cs
    split at h
    · cases h
      exact drops_self _
    · obtain ⟨_, _, heq, -, hdrops⟩ := drops_of_numberToken h
      cases heq
      exact hdrops

end Taking

/-! ## Unbroken lines -/

/-- A text without a line feed or a comment, in which every quote belongs to a quoted string. -/
inductive Unbroken : List Char → Prop
  | nil : Unbroken []
  | char {c : Char} {cs : List Char} (hq : c ≠ '"') (hc : c ≠ '#') (hl : c ≠ '\n')
      (h : Unbroken cs) : Unbroken (c :: cs)
  | quoted (s : String) {cs : List Char} (hq : cs.head? ≠ some '"') (h : Unbroken cs) :
      Unbroken ((quoted s).toList ++ cs)

theorem Unbroken.tail {c : Char} {cs : List Char} (hc : c ≠ '"') (h : Unbroken (c :: cs)) :
    Unbroken cs := by
  generalize htext : c :: cs = text at h
  cases h with
  | nil => cases htext
  | char _ _ _ h =>
    cases htext
    exact h
  | quoted =>
    rw [quoted_append] at htext
    exact absurd (List.cons.inj htext).1 hc

theorem Unbroken.of_drops {cs after : List Char} (h : Unbroken cs) (hd : Drops cs after) :
    Unbroken after := by
  obtain ⟨front, rfl, hfront⟩ := hd
  induction front with
  | nil => exact h
  | cons c front ih =>
    rw [List.mem_cons, not_or] at hfront
    exact ih hfront.2 (h.tail (Ne.symm hfront.1))

/-- Characters that stand in a line wherever no string is written. -/
def isOrdinary (c : Char) : Bool := c ≠ '"' && c ≠ '#' && c ≠ '\n'

theorem Unbroken.ordinary {as bs : List Char} (ha : as.all isOrdinary = true) (hb : Unbroken bs) :
    Unbroken (as ++ bs) := by
  induction as with
  | nil => exact hb
  | cons c as ih =>
    simp only [List.all_cons, Bool.and_eq_true, isOrdinary, decide_eq_true_eq] at ha
    obtain ⟨⟨⟨hq, hc⟩, hl⟩, has⟩ := ha
    exact .char hq hc hl (ih has)

theorem unbroken_of_ordinary {cs : List Char} (h : cs.all isOrdinary = true) : Unbroken cs := by
  have hcs := Unbroken.ordinary h .nil
  rwa [List.append_nil] at hcs

theorem Unbroken.append {as bs : List Char} (ha : Unbroken as) (hb : Unbroken bs)
    (hq : bs.head? ≠ some '"') : Unbroken (as ++ bs) := by
  induction ha with
  | nil => exact hb
  | char hquote hc hl _ ih => exact .char hquote hc hl ih
  | @quoted s cs hquote _ ih =>
    rw [List.append_assoc]
    refine .quoted s ?_ ih
    cases cs with
    | nil => exact hq
    | cons c cs => exact hquote

theorem Unbroken.append_ordinary {as bs : List Char} (ha : Unbroken as)
    (hb : bs.all isOrdinary = true) : Unbroken (as ++ bs) := by
  refine ha.append (unbroken_of_ordinary hb) fun hq => ?_
  have hquote := List.all_eq_true.mp hb '"' (List.mem_of_mem_head? hq)
  cases hquote

theorem newline_not_mem_escape (c : Char) : '\n' ∉ escape c := by
  rcases escape_cases c with ⟨e, hescape, -, he⟩ | ⟨hcontrol, hescape⟩ | ⟨-, -, hline, hescape⟩
  · have hne : '\n' ≠ e := by
      rintro rfl
      cases he
    simp [hescape, hne]
  · have hdigit : ∀ n < 16, '\n' ≠ hexDigit n := by decide
    have hhigh := hdigit (c.toNat / 16) (by omega)
    have hlow := hdigit (c.toNat % 16) (by omega)
    simp [hescape, hhigh, hlow]
  · have hne : '\n' ≠ c := by
      rintro rfl
      cases hline
    simp [hescape, hne]

theorem Unbroken.newline_not_mem {cs : List Char} (h : Unbroken cs) : '\n' ∉ cs := by
  induction h with
  | nil => exact List.not_mem_nil
  | char _ _ hl _ ih =>
    rw [List.mem_cons, not_or]
    exact ⟨hl.symm, ih⟩
  | quoted s _ _ ih =>
    have hs : '\n' ∉ escapeAll s.toList := by
      rw [escapeAll, List.mem_flatMap]
      rintro ⟨c, -, hc⟩
      exact newline_not_mem_escape c hc
    rw [quoted_append]
    simp [hs, ih]

/-! ## Texts that are scanned alike -/

/-- Two texts are made of the same tokens, or neither is made of tokens. -/
def ScannedAlike (as bs : List Char) : Prop :=
  ∀ n m, as.length ≤ n → bs.length ≤ m → scanWith n as = scanWith m bs

section ScannedAlike

variable {as bs : List Char}

theorem ScannedAlike.symm (h : ScannedAlike as bs) : ScannedAlike bs as :=
  fun n m hn hm => (h m n hm hn).symm

theorem scannedAlike_nil : ScannedAlike [] [] := by
  intro n m _ _
  rw [scanWith, scanWith]

theorem ScannedAlike.separator {c : Char} (hc : isSeparator c = true) (h : ScannedAlike as bs) :
    ScannedAlike (c :: as) bs := by
  intro n m hn hm
  rw [List.length_cons] at hn
  obtain ⟨k, rfl⟩ : ∃ k, n = k + 1 := ⟨n - 1, by omega⟩
  rw [scanWith, if_pos hc]
  exact h k m (by omega) hm

theorem ScannedAlike.separators {cs : List Char} (hc : cs.all isSeparator = true)
    (h : ScannedAlike as bs) : ScannedAlike (cs ++ as) bs := by
  induction cs with
  | nil => exact h
  | cons c cs ih =>
    rw [List.all_cons, Bool.and_eq_true] at hc
    exact (ih hc.2).separator hc.1

/-- One step of the scanner on two texts with the same first character. -/
theorem scannedAlike_cons {c : Char} (hc : c ≠ '#') (hs : isSeparator c = true → ScannedAlike as bs)
    (ht : isSeparator c = false → token? (c :: as) = none ∧ token? (c :: bs) = none ∨
      ∃ t as' bs', token? (c :: as) = some (t, as') ∧ token? (c :: bs) = some (t, bs') ∧
        as'.length ≤ as.length ∧ bs'.length ≤ bs.length ∧ ScannedAlike as' bs') :
    ScannedAlike (c :: as) (c :: bs) := by
  intro n m hn hm
  rw [List.length_cons] at hn hm
  obtain ⟨n, rfl⟩ : ∃ k, n = k + 1 := ⟨n - 1, by omega⟩
  obtain ⟨m, rfl⟩ : ∃ k, m = k + 1 := ⟨m - 1, by omega⟩
  rw [scanWith, scanWith]
  cases hsep : isSeparator c with
  | true => exact hs hsep n m (by omega) (by omega)
  | false =>
    rw [if_neg Bool.false_ne_true, if_neg Bool.false_ne_true, if_neg hc, if_neg hc]
    rcases ht hsep with ⟨ha, hb⟩ | ⟨t, as', bs', ha, hb, hla, hlb, hrest⟩
    · rw [ha, hb]
      rfl
    · have hscan := hrest n m (by omega) (by omega)
      rw [ha, hb]
      simp only [Option.bind_eq_bind, Option.bind_some, hscan]

theorem Broken.head?_append {cs : List Char} (hq : cs.head? ≠ some '"') (ha : Broken as) :
    (cs ++ as).head? ≠ some '"' := by
  cases cs with
  | nil =>
    intro heq
    cases ha '"' heq
  | cons c cs => exact hq

/-- Texts that are scanned alike are so behind an unbroken line, too. -/
theorem ScannedAlike.append {cs : List Char} (hc : Unbroken cs) (ha : Broken as) (hb : Broken bs)
    (h : ScannedAlike as bs) : ScannedAlike (cs ++ as) (cs ++ bs) := by
  -- a token takes more than one constructor of `Unbroken` away: the induction is on the length
  induction hn : cs.length using Nat.strongRecOn generalizing cs with
  | ind n ih =>
    subst hn
    cases hc with
    | nil => exact h
    | @char c cs hq hcomment _ hc =>
      rw [List.cons_append, List.cons_append]
      refine scannedAlike_cons hcomment (fun _ => ih _ (by simp) hc rfl) fun _ => ?_
      rw [token?_break ha hq, token?_break hb hq]
      cases ht : token? (c :: cs) with
      | none =>
        exact Or.inl ⟨rfl, rfl⟩
      | some read =>
        obtain ⟨t, after⟩ := read
        have hdrops := drops_of_token? hq ht
        have hlength := hdrops.length_le
        have hafter := ih after.length (by rw [List.length_cons]; omega) (hc.of_drops hdrops) rfl
        refine Or.inr ⟨t, after ++ as, after ++ bs, rfl, rfl, ?_, ?_, hafter⟩ <;>
          · rw [List.length_append, List.length_append]
            omega
    | @quoted s cs hq hc =>
      have hta := token?_quoted s (ha.head?_append hq)
      have htb := token?_quoted s (hb.head?_append hq)
      have hlength : ∀ rest : List Char,
          rest.length ≤ (escapeAll s.toList ++ '"' :: rest).length := by
        intro rest
        rw [List.length_append, List.length_cons]
        omega
      have hrest := ih cs.length (by simp [quoted]; omega) hc rfl
      rw [List.append_assoc, List.append_assoc]
      rw [quoted_append] at hta htb ⊢
      rw [quoted_append]
      exact scannedAlike_cons (by decide) (fun hs => absurd hs (by decide)) fun _ =>
        Or.inr ⟨_, _, _, hta, htb, hlength _, hlength _, hrest⟩

end ScannedAlike

end QueryShapes.Executable
