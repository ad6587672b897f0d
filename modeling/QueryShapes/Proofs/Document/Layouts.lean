/-
  The two layouts of a document say the same.

  A document whose names are names of the language is laid out in unbroken lines:
  its texts hold no line feed, and behind every break stands a text that begins
  with no blank (`Laid`).  So its breaks can be told from its texts, and putting
  each of them down as one space makes the compact text of the pretty one
  (`joinLines_pieceChars`); and as breaks only separate tokens, both texts have
  the same (`scannedAlike_pieceChars`).  No string that the document holds takes part in
  either.
-/
import QueryShapes.Proofs.Document.Resolution
import QueryShapes.Proofs.Executable.Breaks
import QueryShapes.Proofs.Executable.Written

namespace QueryShapes

/-! ## Names in an operation -/

/-- Constants whose enum values and object keys are names. -/
inductive Literal.Named : Literal → Prop
  | null : Named .null
  | int (i : Int64) : Named (.int i)
  | float (x : Double) : Named (.float x)
  | string (s : String) : Named (.string s)
  | boolean (b : Bool) : Named (.boolean b)
  | enum {word : String} (h : Name.isValid word = true) : Named (.enum word)
  | list {items : List Literal} (h : ∀ l ∈ items, Named l) : Named (.list items)
  | object {entries : List (String × Literal)} (hk : ∀ e ∈ entries, Name.isValid e.1 = true)
      (h : ∀ e ∈ entries, Named e.2) : Named (.object entries)

structure FieldArgument.Named (a : FieldArgument) : Prop where
  name : Name.isValid a.name = true
  literals : ∀ l, a.value = .literal l → l.Named
  names : ∀ v, a.value = .documentVariable v → Name.isValid v = true

structure Field.Named (f : Field) : Prop where
  name : Name.isValid f.name = true
  aliases : ∀ a, f.aliasName = some a → Name.isValid a = true
  arguments : ∀ a ∈ f.arguments, a.Named

/-- Selection lists whose fields, conditions and fragments are called by names. -/
inductive Selection.Named : List Selection → Prop
  | nil : Named []
  | field {f : Field} {subs rest : List Selection} (hf : f.Named) (hs : Named subs)
      (hr : Named rest) : Named (.field f subs :: rest)
  | spread {name condition : String} {rest : List Selection} (hn : Name.isValid name = true)
      (hr : Named rest) : Named (.spread name condition :: rest)
  | inline {condition : String} {subs rest : List Selection}
      (hc : Name.isValid condition = true) (hs : Named subs) (hr : Named rest) :
      Named (.inline condition subs :: rest)
  | marker {name : Option String} {condition : String} {subs rest : List Selection}
      (hc : Name.isValid condition = true) (hs : Named subs) (hr : Named rest) :
      Named (.marker name condition subs :: rest)

structure SelectionSet.Named (set : SelectionSet) : Prop where
  name : ∀ n, set.operationName = some n → Name.isValid n = true
  selections : Selection.Named set.selections

structure FragmentDefinition.Named (d : FragmentDefinition) : Prop where
  name : Name.isValid d.name = true
  condition : Name.isValid d.typeCondition = true
  selections : Selection.Named d.selections

structure VariableDeclaration.Named (d : VariableDeclaration) : Prop where
  name : Name.isValid d.name = true
  type : Name.isValid d.type.innerName = true

namespace Document

open Executable
open Text

/-! ## Line feeds -/

/-- Every run of line feeds is put down, with the spaces behind it, as one space. -/
def joinLines : List Char → List Char
  | [] => []
  | c :: cs =>
    if c = '\n' then ' ' :: joinLines ((cs.dropWhile (· = '\n')).dropWhile (· = ' '))
    else c :: joinLines cs
termination_by cs => cs.length
decreasing_by
  · have hfeeds := (List.dropWhile_sublist (· = '\n') (l := cs)).length_le
    have hblanks := (List.dropWhile_sublist (· = ' ') (l := cs.dropWhile (· = '\n'))).length_le
    rw [List.length_cons]
    omega
  · exact Nat.lt_succ_self _

/-- A text on one line. -/
def onOneLine (text : String) : String := String.ofList (joinLines text.toList)

theorem joinLines_append {cs : List Char} (h : '\n' ∉ cs) (rest : List Char) :
    joinLines (cs ++ rest) = cs ++ joinLines rest := by
  induction cs with
  | nil => rfl
  | cons c cs ih =>
    rw [List.mem_cons, not_or] at h
    rw [List.cons_append, joinLines, if_neg (Ne.symm h.1), ih h.2, List.cons_append]

/-- The characters begin with neither a line feed nor a blank, and with no string. -/
def Flush (cs : List Char) : Prop := ∃ c, cs.head? = some c ∧ isOrdinary c = true ∧ c ≠ ' '

theorem Flush.append {as : List Char} (h : Flush as) (bs : List Char) : Flush (as ++ bs) := by
  obtain ⟨c, hc, hne⟩ := h
  refine ⟨c, ?_, hne⟩
  rw [List.head?_append, hc]
  rfl

theorem joinLines_break (feeds blanks : Nat) {rest : List Char} (h : Flush rest) :
    joinLines ('\n' :: (List.replicate feeds '\n' ++ (List.replicate blanks ' ' ++ rest))) =
      ' ' :: joinLines rest := by
  obtain ⟨c, hhead, hordinary, hblank⟩ := h
  have hfeed : c ≠ '\n' := by
    rintro rfl
    cases hordinary
  have hrest : ∀ d, rest.head? = some d → decide (d = ' ') = false := by
    intro d hd
    rw [hhead] at hd
    cases hd
    simpa using hblank
  have hindented : ∀ d, (List.replicate blanks ' ' ++ rest).head? = some d →
      decide (d = '\n') = false := by
    intro d hd
    cases blanks with
    | zero =>
      rw [List.replicate_zero, List.nil_append, hhead] at hd
      cases hd
      simpa using hfeed
    | succ n =>
      cases hd
      rfl
  have hfeeds := (takeWhile_append_of_stop (List.replicate feeds '\n') hindented).2
  have hblanks := (takeWhile_append_of_stop (List.replicate blanks ' ') hrest).2
  rw [joinLines, if_pos rfl, hfeeds, List.dropWhile_replicate, if_pos (by decide),
    List.nil_append, hblanks, List.dropWhile_replicate, if_pos (by decide), List.nil_append]

/-! ## Laid out pieces -/

/-- A text that stands in a line, and does not begin with a string. -/
structure InLine (text : String) : Prop where
  unbroken : Unbroken text.toList
  unquoted : text.toList.head? ≠ some '"'

/-- A piece that is one run of line feeds and spaces, or one space. -/
def Breaks (p : Piece) : Prop :=
  (∃ feeds blanks, pieceChars true [p] =
      '\n' :: (List.replicate feeds '\n' ++ List.replicate blanks ' ')) ∧
    pieceChars false [p] = [' ']

theorem breaks_line (indent : Nat) : Breaks (.line indent) :=
  ⟨⟨0, 2 * indent, (pieceChars_line indent).1⟩, (pieceChars_line indent).2⟩

theorem breaks_gap : Breaks .gap := ⟨⟨1, 0, pieceChars_gap.1⟩, pieceChars_gap.2⟩

theorem Breaks.separators {p : Piece} (h : Breaks p) (pretty : Bool) :
    (pieceChars pretty [p]).all isSeparator = true ∧ pieceChars pretty [p] ≠ [] := by
  obtain ⟨⟨feeds, blanks, hpretty⟩, hcompact⟩ := h
  cases pretty with
  | true =>
    rw [hpretty, List.all_cons, List.all_append, List.all_replicate, List.all_replicate]
    refine ⟨?_, List.cons_ne_nil _ _⟩
    split <;> split <;> rfl
  | false =>
    rw [hcompact]
    exact ⟨by decide, by decide⟩

/-- Pieces of lines, with breaks before texts that begin with no blank. -/
inductive Laid : List Piece → Prop
  | nil : Laid []
  | text {s : String} {ps : List Piece} (hs : InLine s) (h : Laid ps) : Laid (.text s :: ps)
  | behind {p : Piece} {s : String} {ps : List Piece} (hp : Breaks p) (hs : Flush s.toList)
      (h : Laid (.text s :: ps)) : Laid (p :: .text s :: ps)

theorem Laid.line {p : Piece} (hp : Breaks p) {s : String} (hu : Unbroken s.toList)
    (hs : Flush s.toList) {ps : List Piece} (h : Laid ps) : Laid (p :: .text s :: ps) := by
  refine .behind hp hs (.text ⟨hu, fun hq => ?_⟩ h)
  obtain ⟨c, hc, hordinary, -⟩ := hs
  rw [hc] at hq
  cases hq
  cases hordinary

theorem Laid.append {as bs : List Piece} (ha : Laid as) (hb : Laid bs) : Laid (as ++ bs) := by
  induction ha with
  | nil => exact hb
  | text hs _ ih => exact .text hs ih
  | behind hp hs _ ih => exact .behind hp hs ih

/-- Every break of the pretty text is one space of the compact text. -/
theorem joinLines_pieceChars {ps : List Piece} (h : Laid ps) :
    joinLines (pieceChars true ps) = pieceChars false ps := by
  induction h with
  | nil => rw [pieceChars, List.flatMap_nil, joinLines, pieceChars, List.flatMap_nil]
  | text hs _ ih =>
    rw [pieceChars_cons, pieceChars_text, pieceChars_cons, pieceChars_text,
      joinLines_append hs.unbroken.newline_not_mem, ih]
  | @behind p s ps hp hs _ ih =>
    obtain ⟨⟨feeds, blanks, hpretty⟩, hcompact⟩ := hp
    have hflush : Flush (pieceChars true (.text s :: ps)) := by
      rw [pieceChars_cons, pieceChars_text]
      exact hs.append _
    rw [pieceChars_cons, pieceChars_cons false p, hpretty, hcompact, ← ih, List.cons_append,
      List.append_assoc, joinLines_break feeds blanks hflush]
    rfl

/-- Both layouts are scanned alike, behind an unbroken text and the more so alone. -/
theorem scannedAlike_pieceChars {ps : List Piece} (h : Laid ps) {cs : List Char}
    (hc : Unbroken cs) : ScannedAlike (cs ++ pieceChars true ps) (cs ++ pieceChars false ps) := by
  induction h generalizing cs with
  | nil => exact .append hc broken_nil broken_nil scannedAlike_nil
  | text hs _ ih =>
    have hboth := ih (hc.append hs.unbroken hs.unquoted)
    rw [pieceChars_cons, pieceChars_text, pieceChars_cons, pieceChars_text]
    rwa [List.append_assoc, List.append_assoc] at hboth
  | @behind p s ps hp _ _ ih =>
    have hbroken : ∀ pretty, Broken (pieceChars pretty (p :: .text s :: ps)) := by
      intro pretty
      rw [pieceChars_cons]
      exact broken_append (hp.separators pretty).1 (hp.separators pretty).2 _
    refine .append hc (hbroken true) (hbroken false) ?_
    rw [pieceChars_cons, pieceChars_cons false p]
    have hlines := ih .nil
    exact ((hlines.separators (hp.separators true).1).symm.separators (hp.separators false).1).symm

/-! ## Texts of constants -/

theorem isOrdinary_of_isContinue {c : Char} (h : Name.isContinue c = true) :
    isOrdinary c = true := by
  have hne : c ≠ '"' ∧ c ≠ '#' ∧ c ≠ '\n' := by
    refine ⟨?_, ?_, ?_⟩ <;>
      · rintro rfl
        cases h
  simpa [isOrdinary, and_assoc] using hne

theorem ordinary_name {name : String} (h : Name.isValid name = true) :
    name.toList.all isOrdinary = true :=
  List.all_eq_true.mpr fun c hc => isOrdinary_of_isContinue (Name.isContinue_of_mem h c hc)

theorem ordinary_digits (n : Nat) : n.repr.toList.all isOrdinary = true := by
  rw [Nat.toList_repr, List.all_eq_true]
  intro c hc
  exact isOrdinary_of_isContinue (isContinue_of_isDigit (isDigit_of_mem_toDigits hc))

theorem ordinary_integer (i : Int) : (integer i).toList.all isOrdinary = true := by
  cases i with
  | ofNat n => exact ordinary_digits n
  | negSucc n =>
    rw [integer, String.toList_append, List.all_append, ordinary_digits]
    rfl

theorem ordinary_sublist {as bs : List Char} (h : as.Sublist bs)
    (hb : bs.all isOrdinary = true) : as.all isOrdinary = true :=
  List.all_eq_true.mpr fun c hc => List.all_eq_true.mp hb c (h.subset hc)

theorem ordinary_positional {digits : List Char} (h : digits.all isOrdinary = true) (point : Int) :
    (FloatFormat.positional digits point).all isOrdinary = true := by
  have hzeros : ∀ n, (List.replicate n '0').all isOrdinary = true := by
    intro n
    rw [List.all_replicate]
    split <;> rfl
  unfold FloatFormat.positional
  dsimp only
  split
  · simp only [List.all_cons, List.all_append, hzeros, h]
    rfl
  · have hfraction : (if (digits.drop point.toNat).isEmpty then ['0']
        else digits.drop point.toNat).all isOrdinary = true := by
      split
      · rfl
      · exact ordinary_sublist (List.drop_sublist _ _) h
    simp only [List.all_cons, List.all_append, hzeros, hfraction,
      ordinary_sublist (List.take_sublist _ _) h]
    rfl

theorem ordinary_scientific {digits : List Char} (h : digits.all isOrdinary = true)
    {plus : String} (hp : plus.toList.all isOrdinary = true) (exponent : Int) :
    (FloatFormat.scientific plus digits exponent).all isOrdinary = true := by
  have hfraction : (if (digits.drop 1).isEmpty then []
      else '.' :: digits.drop 1).all isOrdinary = true := by
    split
    · rfl
    · rw [List.all_cons, ordinary_sublist (List.drop_sublist _ _) h]
      rfl
  have hsign : (if exponent < 0 then ['-'] else plus.toList).all isOrdinary = true := by
    split
    · rfl
    · exact hp
  unfold FloatFormat.scientific
  dsimp only
  simp only [List.all_append, List.all_cons, hfraction, hsign, ordinary_digits,
    ordinary_sublist (List.take_sublist _ _) h]
  rfl

theorem ordinary_double (x : Double) :
    (FloatFormat.document.text x).toList.all isOrdinary = true := by
  have hmagnitude : (FloatFormat.document.magnitude x).all isOrdinary = true := by
    unfold FloatFormat.magnitude
    dsimp only
    split
    · rfl
    split
    · exact ordinary_positional (ordinary_digits _) _
    · exact ordinary_scientific (ordinary_digits _) rfl _
  unfold FloatFormat.text
  split
  · rfl
  split
  · split <;> rfl
  · rw [String.toList_ofList, List.all_append, hmagnitude]
    split <;> rfl

/-- Unbroken texts with commas between them. -/
theorem unbroken_joined {items : List String} (h : ∀ x ∈ items, Unbroken x.toList) :
    Unbroken (", ".intercalate items).toList := by
  rw [String.toList_intercalate]
  induction items with
  | nil => exact .nil
  | cons x rest ih =>
    have hx := h x List.mem_cons_self
    have ih := ih fun y hy => h y (List.mem_cons_of_mem _ hy)
    cases rest with
    | nil => simpa using hx
    | cons y others =>
      have hcomma : Unbroken (", ".toList ++ _) := .ordinary (by decide) ih
      rw [List.map_cons, List.map_cons, List.intercalate_cons_cons, List.append_assoc]
      exact hx.append hcomma (by simp)

theorem unbroken_between (opening closing : String) (ho : opening.toList.all isOrdinary = true)
    (hc : closing.toList.all isOrdinary = true) {text : String} (h : Unbroken text.toList) :
    Unbroken (opening ++ text ++ closing).toList := by
  rw [String.toList_append, String.toList_append]
  exact (Unbroken.ordinary ho h).append_ordinary hc

/-- A name, a colon and an unbroken text. -/
theorem unbroken_entry {name : String} (hn : Name.isValid name = true) {text : String}
    (h : Unbroken text.toList) : Unbroken (name ++ ": " ++ text).toList := by
  rw [String.toList_append, String.toList_append, List.append_assoc]
  exact .ordinary (ordinary_name hn) (.ordinary (by decide) h)

theorem unbroken_literal {l : Literal} (h : l.Named) : Unbroken l.text.toList := by
  induction h with
  | null => exact unbroken_of_ordinary rfl
  | int i =>
    rw [Literal.text]
    exact unbroken_of_ordinary (ordinary_integer _)
  | float x =>
    rw [Literal.text]
    exact unbroken_of_ordinary (ordinary_double x)
  | string s =>
    rw [Literal.text, ← List.append_nil (quoted s).toList]
    exact .quoted s (by simp) .nil
  | boolean b => cases b <;> exact unbroken_of_ordinary rfl
  | enum hw =>
    rw [Literal.text]
    exact unbroken_of_ordinary (ordinary_name hw)
  | @list items _ ih =>
    rw [Literal.text, joined, itemTexts_eq_map]
    exact unbroken_between "[" "]" (by decide) (by decide)
      (unbroken_joined (List.forall_mem_map.mpr ih))
  | @object entries hk _ ih =>
    have hentry : ∀ e ∈ entries, Unbroken (e.1 ++ ": " ++ e.2.text).toList :=
      fun e he => unbroken_entry (hk e he) (ih e he)
    rw [Literal.text, joined, entryTexts_eq_map]
    exact unbroken_between "\x7b" "\x7d" (by decide) (by decide)
      (unbroken_joined (List.forall_mem_map.mpr hentry))

/-! ## Texts of types, arguments and fields -/

theorem ordinary_type {type : FieldType} (h : Name.isValid type.innerName = true) :
    type.text.toList.all isOrdinary = true := by
  induction type with
  | list item ih =>
    rw [FieldType.text, String.toList_append, String.toList_append, List.all_append,
      List.all_append, ih h]
    rfl
  | nonNull inner ih =>
    rw [FieldType.text, String.toList_append, List.all_append, ih h]
    rfl
  | _ => exact ordinary_name h

/-- Unbroken texts between parentheses, or nothing. -/
theorem inLine_parenthesized {items : List String} (h : ∀ x ∈ items, Unbroken x.toList) :
    InLine (parenthesized items) := by
  unfold parenthesized
  split
  · exact ⟨.nil, by simp⟩
  · exact ⟨unbroken_between "(" ")" (by decide) (by decide) (unbroken_joined h), by simp⟩

theorem unbroken_argument {a : FieldArgument} (h : a.Named) {text : String}
    (ht : argumentText? a = some text) : Unbroken text.toList := by
  unfold argumentText? at ht
  split at ht
  · rename_i l hv
    cases ht
    exact unbroken_entry h.name (unbroken_literal (h.literals l hv))
  · rename_i v hv
    cases ht
    rw [String.toList_append, String.toList_append, List.append_assoc]
    exact unbroken_of_ordinary (by
      rw [List.all_append, List.all_append, ordinary_name h.name, ordinary_name (h.names v hv)]
      decide)
  all_goals cases ht

theorem flush_name {name : String} (h : Name.isValid name = true) : Flush name.toList := by
  have hcontinue := Name.isContinue_of_mem h
  cases hname : name.toList with
  | nil => simp [Name.isValid, hname, Name.isValidChars] at h
  | cons c cs =>
    have hc := hcontinue c (by rw [hname]; exact List.mem_cons_self)
    refine ⟨c, rfl, isOrdinary_of_isContinue hc, ?_⟩
    rintro rfl
    cases hc

/-- The text of a field begins a line. -/
theorem line_field {f : Field} (h : f.Named) :
    Unbroken (fieldText f).toList ∧ Flush (fieldText f).toList := by
  have harguments : ∀ text ∈ f.arguments.filterMap argumentText?, Unbroken text.toList := by
    intro text ht
    obtain ⟨a, ha, htext⟩ := List.mem_filterMap.mp ht
    exact unbroken_argument (h.arguments a ha) htext
  have hname : Unbroken (f.name ++ parenthesized (f.arguments.filterMap argumentText?)).toList := by
    rw [String.toList_append]
    exact .ordinary (ordinary_name h.name) (inLine_parenthesized harguments).unbroken
  unfold fieldText
  cases halias : f.aliasName with
  | none =>
    dsimp only
    rw [String.empty_append]
    refine ⟨hname, ?_⟩
    rw [String.toList_append]
    exact (flush_name h.name).append _
  | some a =>
    dsimp only
    rw [String.append_assoc]
    refine ⟨unbroken_entry (h.aliases a halias) hname, ?_⟩
    rw [String.toList_append, String.toList_append]
    exact ((flush_name (h.aliases a halias)).append _).append _

/-! ## Selections and definitions -/

theorem laid_braces (indent : Nat) {lines : List Piece} (h : Laid lines) :
    Laid (braces indent lines) := by
  have hclosing : Laid [.line indent, .text "\x7d"] :=
    .line (breaks_line indent) (unbroken_of_ordinary rfl) ⟨'}', rfl, rfl, by decide⟩ .nil
  have hopening : InLine "\x7b" := ⟨unbroken_of_ordinary rfl, by decide⟩
  unfold braces
  refine .text hopening ?_
  split
  · exact .text ⟨unbroken_of_ordinary rfl, by decide⟩ .nil
  · rw [List.append_assoc]
    exact h.append hclosing

theorem line_condition {condition : String} (hc : Name.isValid condition = true) :
    Unbroken ("... on " ++ condition ++ " ").toList ∧
      Flush ("... on " ++ condition ++ " ").toList := by
  refine ⟨unbroken_between "... on " " " (by decide) (by decide)
    (unbroken_of_ordinary (ordinary_name hc)), ?_⟩
  rw [String.toList_append, String.toList_append]
  exact ⟨'.', rfl, rfl, by decide⟩

theorem laid_selectionLines {selections : List Selection} (h : Selection.Named selections)
    (indent : Nat) : Laid (selectionLines indent selections) := by
  induction h generalizing indent with
  | nil =>
    rw [selectionLines]
    exact .nil
  | @field f subs rest hf _ _ ihs ihr =>
    obtain ⟨hunbroken, hflush⟩ := line_field hf
    rw [selectionLines]
    refine .line (breaks_line indent) hunbroken hflush ?_
    split
    · exact ihr indent
    · have hblank : InLine " " := ⟨unbroken_of_ordinary rfl, by decide⟩
      exact .text hblank ((laid_braces indent (ihs (indent + 1))).append (ihr indent))
  | @spread name condition rest hn _ ihr =>
    rw [selectionLines]
    refine .line (breaks_line indent) ?_ ?_ (ihr indent)
    · rw [String.toList_append]
      exact .ordinary (by decide) (unbroken_of_ordinary (ordinary_name hn))
    · rw [String.toList_append]
      exact ⟨'.', rfl, rfl, by decide⟩
  | inline hc _ _ ihs ihr | marker hc _ _ ihs ihr =>
    obtain ⟨hunbroken, hflush⟩ := line_condition hc
    rw [selectionLines]
    exact .line (breaks_line indent) hunbroken hflush
      ((laid_braces indent (ihs (indent + 1))).append (ihr indent))

theorem laid_fragment {d : FragmentDefinition} (h : d.Named) : Laid (fragmentPieces d) := by
  refine .line breaks_gap (unbroken_of_ordinary ?_) ?_
    (laid_braces 0 (laid_selectionLines h.selections 1))
  · simp only [String.toList_append, List.all_append, ordinary_name h.name,
      ordinary_name h.condition]
    decide
  · simp only [String.toList_append, List.append_assoc]
    exact ⟨'f', rfl, rfl, by decide⟩

theorem inLine_head {set : SelectionSet} (hset : set.Named)
    {declarations : List VariableDeclaration} (hd : ∀ d ∈ declarations, d.Named) :
    InLine (operationHead set declarations) := by
  have hvariables : ∀ text ∈ declarations.map fun v => "$" ++ v.name ++ ": " ++ v.type.text,
      Unbroken text.toList := by
    refine List.forall_mem_map.mpr fun d hmem => unbroken_of_ordinary ?_
    simp only [String.toList_append, List.all_append, ordinary_name (hd d hmem).name,
      ordinary_type (hd d hmem).type]
    decide
  have hbehind : Unbroken (parenthesized (declarations.map fun v =>
      "$" ++ v.name ++ ": " ++ v.type.text) ++ " ").toList := by
    rw [String.toList_append]
    exact (inLine_parenthesized hvariables).unbroken.append_ordinary (by decide)
  have hkeyword : set.kind.keyword.toList.all isOrdinary = true := by cases set.kind <;> rfl
  unfold operationHead
  rw [String.append_assoc, String.append_assoc]
  refine ⟨?_, ?_⟩
  · rw [String.toList_append, String.toList_append]
    refine .ordinary hkeyword (.ordinary ?_ hbehind)
    cases hn : set.operationName with
    | none => rfl
    | some name =>
      dsimp only
      rw [String.toList_append, List.all_append, ordinary_name (hset.name name hn)]
      decide
  · cases set.kind <;> simp [OperationKind.keyword]

theorem laid_pieces {set : SelectionSet} (hset : set.Named) {fragments : List FragmentDefinition}
    (hfragments : ∀ d ∈ fragments, d.Named) {declarations : List VariableDeclaration}
    (hdeclarations : ∀ d ∈ declarations, d.Named) :
    Laid (pieces set fragments declarations) := by
  have hblock := laid_braces 0 (laid_selectionLines hset.selections 1)
  refine .text (inLine_head hset hdeclarations) (hblock.append ?_)
  induction fragments with
  | nil => exact .nil
  | cons d rest ih =>
    rw [List.forall_mem_cons] at hfragments
    rw [List.flatMap_cons]
    exact (laid_fragment hfragments.1).append (ih hfragments.2)

theorem onOneLine_render {ps : List Piece} (h : Laid ps) :
    onOneLine (render true ps) = render false ps := by
  refine String.toList_inj.mp ?_
  rw [onOneLine, String.toList_ofList, toList_render, toList_render, joinLines_pieceChars h]

theorem scan?_render {ps : List Piece} (h : Laid ps) :
    scan? (render true ps) = scan? (render false ps) := by
  have halike := scannedAlike_pieceChars h .nil
  rw [List.nil_append, List.nil_append, ← toList_render, ← toList_render] at halike
  exact halike _ _ (Nat.le_refl _) (Nat.le_refl _)

/-- The compact text is the pretty one on one line, and both have the same tokens. -/
theorem synthesize_layouts {set : SelectionSet} (hset : set.Named)
    {fragments : List FragmentDefinition} (hfragments : ∀ d ∈ fragments, d.Named)
    {declarations : List VariableDeclaration} (hdeclarations : ∀ d ∈ declarations, d.Named) :
    synthesize set fragments declarations false =
        (synthesize set fragments declarations true).map onOneLine ∧
      ∀ pretty compact, synthesize set fragments declarations true = .ok pretty →
        synthesize set fragments declarations false = .ok compact →
        scan? pretty = scan? compact := by
  have hlaid := laid_pieces hset hfragments hdeclarations
  constructor
  · unfold synthesize
    dsimp only
    cases checkResolved (fragments.map (·.name)) set.selections with
    | error e => rfl
    | ok =>
      cases fragments.forM fun d => checkResolved (fragments.map (·.name)) d.selections with
      | error e => rfl
      | ok => exact congrArg Except.ok (onOneLine_render hlaid).symm
  · intro pretty compact hpretty hcompact
    obtain ⟨-, -, rfl⟩ := synthesize_eq_ok hpretty
    obtain ⟨-, -, rfl⟩ := synthesize_eq_ok hcompact
    exact scan?_render hlaid

/-! ## A greeting in both layouts -/

/-- A greeting of two lines, with quotes, braces and a mark in it. -/
def greeting : SelectionSet :=
  ⟨.query, some "Greeting", "Query",
    [.field ⟨"greet", none, "Query", .named "Reply",
      [⟨"text", .string, .literal (.string "Hello\n  \"\x7b you \x7d\" # all"), none⟩], false⟩
      [.spread "reply" "Reply"]]⟩

def replyFragment : FragmentDefinition :=
  ⟨"reply", "Reply", [.field ⟨"text", none, "Reply", .string, [], false⟩ []]⟩

def greetingText : String :=
  "query Greeting \x7b\n  greet(text: \"Hello\\n  \\\"\x7b you \x7d\\\" # all\") \x7b\n" ++
    "    ...reply\n  \x7d\n\x7d\n\nfragment reply on Reply \x7b\n  text\n\x7d"

def greetingLine : String :=
  "query Greeting \x7b greet(text: \"Hello\\n  \\\"\x7b you \x7d\\\" # all\") \x7b " ++
    "...reply \x7d \x7d fragment reply on Reply \x7b text \x7d"

/-- The pieces of the greeting. -/
def greetingPieces : List Piece :=
  [.text "query Greeting ", .text "\x7b", .line 1,
    .text "greet(text: \"Hello\\n  \\\"\x7b you \x7d\\\" # all\")", .text " ", .text "\x7b",
    .line 2, .text "...reply", .line 1, .text "\x7d", .line 0, .text "\x7d", .gap,
    .text "fragment reply on Reply ", .text "\x7b", .line 1, .text "text", .line 0, .text "\x7d"]

theorem pieces_greeting : pieces greeting [replyFragment] [] = greetingPieces := by
  have hgreet : fieldText ⟨"greet", none, "Query", .named "Reply",
      [⟨"text", .string, .literal (.string "Hello\n  \"\x7b you \x7d\" # all"), none⟩], false⟩ =
        "greet(text: \"Hello\\n  \\\"\x7b you \x7d\\\" # all\")" := by
    decide +kernel
  have hreply : fieldText ⟨"text", none, "Reply", .string, [], false⟩ = "text" := by
    decide +kernel
  simp [pieces, greeting, replyFragment, operationHead, OperationKind.keyword, parenthesized,
    selectionBlock, fragmentPieces, braces, selectionLines, hgreet, hreply, greetingPieces]

theorem synthesize_greeting (pretty : Bool) :
    synthesize greeting [replyFragment] [] pretty = .ok (render pretty greetingPieces) := by
  rw [← pieces_greeting]
  simp [synthesize, greeting, replyFragment, checkResolved, unresolvedArgument?, bind, Except.bind,
    pure, Except.pure]

theorem synthesize_layouts_greeting :
    synthesize greeting [replyFragment] [] true = .ok greetingText ∧
      synthesize greeting [replyFragment] [] false = .ok greetingLine ∧
      onOneLine greetingText = greetingLine ∧ scan? greetingText = scan? greetingLine ∧
        (scan? greetingLine).isSome = true := by
  have hpretty : render true greetingPieces = greetingText := by decide +kernel
  have hcompact : render false greetingPieces = greetingLine := by decide +kernel
  have htext := hpretty ▸ synthesize_greeting true
  have hline := hcompact ▸ synthesize_greeting false
  have hgreet : Field.Named ⟨"greet", none, "Query", .named "Reply",
      [⟨"text", .string, .literal (.string "Hello\n  \"\x7b you \x7d\" # all"), none⟩], false⟩ :=
    ⟨by decide, by simp, by
      simp only [List.mem_singleton, forall_eq]
      refine ⟨by decide, ?_, by simp⟩
      rintro l ⟨⟩
      exact .string _⟩
  have hset : greeting.Named := by
    refine ⟨?_, .field hgreet (.spread (by decide) .nil) .nil⟩
    rintro n ⟨⟩
    decide
  have hreply : ∀ d ∈ [replyFragment], d.Named := by
    simp only [List.mem_singleton, forall_eq]
    exact ⟨by decide, by decide, .field ⟨by decide, by simp, by simp⟩ .nil .nil⟩
  have hnone : ∀ d ∈ ([] : List VariableDeclaration), d.Named := by simp
  obtain ⟨hlayouts, htokens⟩ := synthesize_layouts hset hreply hnone
  rw [htext, hline] at hlayouts
  exact ⟨htext, hline, (Except.ok.inj hlayouts).symm, htokens _ _ htext hline, by decide +kernel⟩

end Document

end QueryShapes
