/-
  Constants are read back from their texts.

  A string is read back character by character, each from its escape.  A
  constant that is `Writable` is made of tokens that derive it
  (`exists_constant`).
-/
import Mathlib.Tactic.Choose
import QueryShapes.Proofs.Executable.Numbers
import QueryShapes.Proofs.Schema.Legality

namespace QueryShapes.Executable

open Sdl (Token)
open Text

/-! ## Strings -/

theorem hex4?_escape {n : Nat} (h : n < 32) :
    hex4? '0' '0' (hexDigit (n / 16)) (hexDigit (n % 16)) = some n := by
  have hall : ∀ m < 32, hex4? '0' '0' (hexDigit (m / 16)) (hexDigit (m % 16)) = some m := by
    decide
  exact hall n h

theorem charOfCode?_toNat (c : Char) : Sdl.charOfCode? c.toNat = some c := by
  have hvalid : c.toNat.isValidChar := c.valid
  rw [Sdl.charOfCode?, if_pos hvalid, Char.ofNat_toNat]

theorem unicodeEscape?_escape {c : Char} (h : c.toNat < 32) (rest : List Char) :
    Sdl.unicodeEscape? ('0' :: '0' :: hexDigit (c.toNat / 16) :: hexDigit (c.toNat % 16) :: rest) =
      some (c, rest) := by
  have hhigh : isHighSurrogate c.toNat = false := by
    simp only [isHighSurrogate, Bool.and_eq_false_iff, decide_eq_false_iff_not]
    omega
  unfold Sdl.unicodeEscape?
  split
  · rename_i heq
    cases heq
  · rename_i heq
    cases heq
    split
    · rename_i hnone
      rw [hex4?_escape h] at hnone
      cases hnone
    · rename_i hsome
      rw [hex4?_escape h] at hsome
      cases hsome
      rw [if_neg (by simp [hhigh]), charOfCode?_toNat]
      rfl
    · rename_i hsome _
      rw [hex4?_escape h] at hsome
      cases hsome
      rw [charOfCode?_toNat]
      rfl
  · rename_i hother
    exact absurd rfl (hother _ _ _ _ _)

/-- A character is written with a letter, with its code or as itself. -/
theorem escape_cases (c : Char) :
    (∃ e, escape c = ['\\', e] ∧ e ≠ 'u' ∧ escaped? e = some c) ∨
    (c.toNat < 32 ∧
      escape c = ['\\', 'u', '0', '0', hexDigit (c.toNat / 16), hexDigit (c.toNat % 16)]) ∨
    (c ≠ '"' ∧ c ≠ '\\' ∧ Sdl.isLineEnd c = false ∧ escape c = [c]) := by
  by_cases hquote : c = '"'
  · exact Or.inl ⟨'"', by rw [hquote]; decide, by decide, by rw [hquote]; rfl⟩
  by_cases hbackslash : c = '\\'
  · exact Or.inl ⟨'\\', by rw [hbackslash]; decide, by decide, by rw [hbackslash]; rfl⟩
  by_cases hfeed : c = '\n'
  · exact Or.inl ⟨'n', by rw [hfeed]; decide, by decide, by rw [hfeed]; rfl⟩
  by_cases hreturn : c = '\r'
  · exact Or.inl ⟨'r', by rw [hreturn]; decide, by decide, by rw [hreturn]; rfl⟩
  by_cases htab : c = '\t'
  · exact Or.inl ⟨'t', by rw [htab]; decide, by decide, by rw [htab]; rfl⟩
  by_cases hback : c.toNat = 8
  · have hc : c = '\x08' := Char.toNat_inj.mp hback
    exact Or.inl ⟨'b', by rw [hc]; decide, by decide, by rw [hc]; rfl⟩
  by_cases hform : c.toNat = 12
  · have hc : c = '\x0c' := Char.toNat_inj.mp hform
    exact Or.inl ⟨'f', by rw [hc]; decide, by decide, by rw [hc]; rfl⟩
  have hescape : escape c = if c.toNat < 32 then
      ['\\', 'u', '0', '0', hexDigit (c.toNat / 16), hexDigit (c.toNat % 16)] else [c] := by
    rw [escape, if_neg hquote, if_neg hbackslash, if_neg hfeed, if_neg hreturn, if_neg htab,
      if_neg hback, if_neg hform]
  by_cases hcontrol : c.toNat < 32
  · exact Or.inr (Or.inl ⟨hcontrol, by rw [hescape, if_pos hcontrol]⟩)
  · have hline : Sdl.isLineEnd c = false := by simp [Sdl.isLineEnd, hfeed, hreturn]
    exact Or.inr (Or.inr ⟨hquote, hbackslash, hline, by rw [hescape, if_neg hcontrol]⟩)

/-- A character is read from its escape. -/
theorem stringBody_escape (acc rest : List Char) (c : Char) :
    Sdl.stringBody acc (escape c ++ rest) = Sdl.stringBody (c :: acc) rest := by
  rcases escape_cases c with ⟨e, hescape, hu, he⟩ | ⟨hcontrol, hescape⟩ |
    ⟨hquote, hbackslash, hline, hescape⟩
  · simp [hescape, Sdl.stringBody, he]
  · have hcode := unicodeEscape?_escape hcontrol rest
    simp only [hescape, List.cons_append, List.nil_append]
    rw [Sdl.stringBody]
    split
    · rename_i heq
      rw [hcode] at heq
      cases heq
      rfl
    · rename_i heq
      rw [hcode] at heq
      cases heq
  · simp [hescape, Sdl.stringBody, hbackslash, hline]

theorem stringBody_escapeAll (acc cs rest : List Char) :
    Sdl.stringBody acc (escapeAll cs ++ '"' :: rest) =
      some (String.ofList (acc.reverse ++ cs), rest) := by
  induction cs generalizing acc with
  | nil => simp [Sdl.stringBody]
  | cons c cs ih =>
    rw [escapeAll_cons, List.append_assoc, stringBody_escape, ih, List.reverse_cons,
      List.append_assoc]
    rfl

/-- Behind its first quote a quoted string does not go on like a block string. -/
theorem ne_block_escapeAll {cs rest after : List Char} (hr : rest.head? ≠ some '"') :
    escapeAll cs ++ '"' :: rest ≠ '"' :: '"' :: after := by
  intro heq
  cases cs with
  | nil =>
    cases heq
    exact hr rfl
  | cons c cs =>
    have hhead : (escape c ++ (escapeAll cs ++ '"' :: rest)).head? = some '"' := by
      rw [← List.append_assoc, ← escapeAll_cons, heq]
      rfl
    rcases escape_cases c with ⟨e, hescape, -⟩ | ⟨-, hescape⟩ | ⟨hquote, -, -, hescape⟩
    · simp [hescape] at hhead
    · simp [hescape] at hhead
    · simp [hescape, hquote] at hhead

theorem quoted_append (s : String) (rest : List Char) :
    (quoted s).toList ++ rest = '"' :: (escapeAll s.toList ++ '"' :: rest) := by
  simp [quoted]

/-- A quoted string is read to its closing quote. -/
theorem token?_quoted (s : String) {rest : List Char} (hr : rest.head? ≠ some '"') :
    token? ((quoted s).toList ++ rest) = some (.string s, rest) := by
  rw [quoted_append]
  unfold token?
  split <;> rename_i heq
  · exact absurd (List.cons.inj heq).2 (ne_block_escapeAll hr)
  · cases heq
    rw [stringBody_escapeAll, List.reverse_nil, List.nil_append, String.ofList_toList]
    rfl
  · exact absurd rfl (heq _)

/-- A quoted string is read back. -/
theorem lexes_quoted (s : String) : Lexes (quoted s).toList [.string s] := by
  intro rest us hr hrest
  have hquote : rest.head? ≠ some '"' := by
    intro heq
    cases hr '"' heq
  have hread := token?_quoted s hquote
  rw [quoted_append] at hread ⊢
  have hsuffix : rest <:+ escapeAll s.toList ++ '"' :: rest := by
    rw [List.append_cons]
    exact List.suffix_append _ rest
  exact .token (by decide) (by decide) hread hsuffix.length_le hrest

/-! ## Constants -/

mutual

/-- A constant as it is written. -/
def Value.ofLiteral : Literal → Value
  | .null => .null
  | .int i => .int i.toInt
  | .float x => .float x
  | .string s => .string s
  | .boolean b => .boolean b
  | .enum name => .enum name
  | .list items => .list (Value.ofItems items)
  | .object entries => .object (Value.ofEntries entries)

def Value.ofItems : List Literal → List Value
  | [] => []
  | l :: rest => Value.ofLiteral l :: Value.ofItems rest

def Value.ofEntries : List (String × Literal) → List (String × Value)
  | [] => []
  | (k, l) :: rest => (k, Value.ofLiteral l) :: Value.ofEntries rest

end

theorem ofItems_eq_map (items : List Literal) :
    Value.ofItems items = items.map Value.ofLiteral := by
  induction items with
  | nil => rw [Value.ofItems, List.map_nil]
  | cons l rest ih => rw [Value.ofItems, List.map_cons, ih]

theorem ofEntries_eq_map (entries : List (String × Literal)) :
    Value.ofEntries entries = entries.map fun e => (e.1, Value.ofLiteral e.2) := by
  induction entries with
  | nil => rw [Value.ofEntries, List.map_nil]
  | cons e rest ih => rw [Value.ofEntries, List.map_cons, ih]

theorem itemTexts_eq_map (items : List Literal) :
    Literal.itemTexts items = items.map Literal.text := by
  induction items with
  | nil => rw [Literal.itemTexts, List.map_nil]
  | cons l rest ih => rw [Literal.itemTexts, List.map_cons, ih]

theorem entryTexts_eq_map (entries : List (String × Literal)) :
    Literal.entryTexts entries = entries.map fun e => e.1 ++ ": " ++ e.2.text := by
  induction entries with
  | nil => rw [Literal.entryTexts, List.map_nil]
  | cons e rest ih => rw [Literal.entryTexts, List.map_cons, ih]

/-- The text of a double is the token of a float, and the float nearest to that is the double. -/
def ReadsBack (x : Double) : Prop :=
  ∃ negative coefficient exponent,
    token? (FloatFormat.document.text x).toList =
      some (.float negative coefficient exponent, []) ∧
    Double.ofDecimal negative coefficient exponent = x

/-- Constants whose text can be read: floats read back, object keys and enum values are names,
    and no enum value is spelled like another constant. -/
inductive Writable : Literal → Prop
  | null : Writable .null
  | int (i : Int64) : Writable (.int i)
  | float {x : Double} (h : ReadsBack x) : Writable (.float x)
  | string (s : String) : Writable (.string s)
  | boolean (b : Bool) : Writable (.boolean b)
  | enum {name : String} (hv : Name.isValid name = true) (hr : name ∉ reserved) :
      Writable (.enum name)
  | list {items : List Literal} (h : ∀ l ∈ items, Writable l) : Writable (.list items)
  | object {entries : List (String × Literal)} (hk : ∀ e ∈ entries, Name.isValid e.1 = true)
      (h : ∀ e ∈ entries, Writable e.2) : Writable (.object entries)

/-- Constants whose spelling tells what they are: no enum value is spelled like another constant,
    and finite floats read back. -/
inductive Spellable : Literal → Prop
  | null : Spellable .null
  | int (i : Int64) : Spellable (.int i)
  | float {x : Double} (h : x.isFinite = true → ReadsBack x) : Spellable (.float x)
  | string (s : String) : Spellable (.string s)
  | boolean (b : Bool) : Spellable (.boolean b)
  | enum {name : String} (h : name ∉ reserved) : Spellable (.enum name)
  | list {items : List Literal} (h : ∀ l ∈ items, Spellable l) : Spellable (.list items)
  | object {entries : List (String × Literal)} (h : ∀ e ∈ entries, Spellable e.2) :
      Spellable (.object entries)

theorem writable_of_wellFormed {l : Literal} (hl : Spellable l)
    (h : Schema.wellFormed l = true) : Writable l := by
  induction hl with
  | null => exact .null
  | int i => exact .int i
  | float hx =>
    rw [Schema.wellFormed] at h
    exact .float (hx h)
  | string s => exact .string s
  | boolean b => exact .boolean b
  | enum hr =>
    rw [Schema.wellFormed] at h
    exact .enum h hr
  | list _ ih =>
    rw [Schema.wellFormed] at h
    exact .list fun l hl => ih l hl (Literal.wellFormed_of_mem_items h l hl)
  | object _ ih =>
    rw [Schema.wellFormed] at h
    exact .object (Schema.isValid_of_mem_entries h) fun e he =>
      ih e he (Literal.wellFormed_of_mem_entries h e he)

/-- A name, a colon and a text are the tokens of an entry. -/
theorem lexes_entry {name : String} (hv : Name.isValid name = true) {text : String}
    {ts : List Token} (h : Lexes text.toList ts) :
    Lexes (name ++ ": " ++ text).toList (.name name :: .punctuator ':' :: ts) := by
  have hcolon : Closed [':'] [.punctuator ':'] := closed_mark (by decide)
  have hbehind := hcolon.append_lexes (closed_blank.append_lexes h)
  have hentry := (lexes_name hv).append (boundary_cons (by decide)) hbehind
  simpa [String.toList_append] using hentry

/-- A text between marks. -/
theorem closed_between (opening closing : Char) (ho : Sdl.isPunctuator opening = true)
    (hc : Sdl.isPunctuator closing = true) {cs : List Char} {ts : List Token}
    (h : Lexes cs ts) :
    Closed (opening :: (cs ++ [closing]))
      (.punctuator opening :: (ts ++ [Token.punctuator closing])) :=
  (closed_mark ho).append (h.append_closed (boundary_cons (runsOn_of_isPunctuator hc))
    (List.cons_ne_nil _ _) (closed_mark hc))

/-- The text of a constant is made of tokens that derive it. -/
theorem exists_constant {l : Literal} (h : Writable l) (constant : Bool) :
    ∃ ts, Lexes l.text.toList ts ∧ DerivesValue constant ts (Value.ofLiteral l) := by
  induction h with
  | null => exact ⟨_, lexes_name (by decide), by rw [Value.ofLiteral]; exact .null⟩
  | int i =>
    rw [Literal.text, Value.ofLiteral]
    exact ⟨_, lexes_integer i.toInt, .int _⟩
  | float h =>
    obtain ⟨negative, coefficient, exponent, hread, hvalue⟩ := h
    rw [Literal.text, Value.ofLiteral]
    refine ⟨_, lexes_number (number?_of_token? hread), ?_⟩
    have hfloat : DerivesValue constant [.float negative coefficient exponent]
        (.float (Double.ofDecimal negative coefficient exponent)) := .float ..
    rwa [hvalue] at hfloat
  | string s =>
    rw [Literal.text, Value.ofLiteral]
    exact ⟨_, lexes_quoted s, .string s⟩
  | boolean b =>
    rw [Value.ofLiteral]
    cases b with
    | true => exact ⟨_, lexes_name (by decide), .booleanTrue⟩
    | false => exact ⟨_, lexes_name (by decide), .booleanFalse⟩
  | enum hv hr =>
    rw [Literal.text, Value.ofLiteral]
    exact ⟨_, lexes_name hv, .enum hr⟩
  | @list items h ih =>
    choose! tokens hlexes hderives using ih
    have hitems := closed_between '[' ']' (by decide) (by decide)
      (lexes_joined hlexes)
    have htext : (Literal.list items).text.toList =
        '[' :: ((", ".intercalate (items.map Literal.text)).toList ++ [']']) := by
      rw [Literal.text, joined, itemTexts_eq_map, String.toList_append, String.toList_append]
      rfl
    have hparts : ∀ p ∈ items.map fun l => (tokens l, Value.ofLiteral l),
        DerivesValue constant p.1 p.2 := by
      intro p hp
      obtain ⟨l, hl, rfl⟩ := List.mem_map.mp hp
      exact hderives l hl
    have hlist := DerivesValue.list hparts
    rw [List.flatMap_map, List.map_map] at hlist
    rw [htext, Value.ofLiteral, ofItems_eq_map]
    exact ⟨_, hitems.lexes, hlist⟩
  | @object entries hk h ih =>
    choose! tokens hlexes hderives using ih
    have hentry : ∀ e ∈ entries, Lexes (e.1 ++ ": " ++ e.2.text).toList
        (entryTokens (e.1, tokens e, Value.ofLiteral e.2)) :=
      fun e he => lexes_entry (hk e he) (hlexes e he)
    have hentries := closed_between '{' '}' (by decide) (by decide)
      (lexes_joined hentry)
    have htext : (Literal.object entries).text.toList =
        '{' :: ((", ".intercalate (entries.map fun e => e.1 ++ ": " ++ e.2.text)).toList ++
          ['}']) := by
      rw [Literal.text, joined, entryTexts_eq_map, String.toList_append, String.toList_append]
      rfl
    have hparts : ∀ p ∈ entries.map fun e => (e.1, tokens e, Value.ofLiteral e.2),
        DerivesValue constant p.2.1 p.2.2 := by
      intro p hp
      obtain ⟨e, he, rfl⟩ := List.mem_map.mp hp
      exact hderives e he
    have hobject := DerivesValue.object hparts
    rw [List.flatMap_map, List.map_map] at hobject
    rw [htext, Value.ofLiteral, ofEntries_eq_map]
    exact ⟨_, hentries.lexes, hobject⟩

end QueryShapes.Executable
