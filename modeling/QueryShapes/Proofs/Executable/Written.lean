/-
  The text of a legal operation is made of tokens, in both layouts.

  `written` is an operation as the grammar has it.  Each part of a legal one is
  a piece of text that is made of the tokens of its part of `written`: types by
  induction over how they are built, selections by induction over the list
  (`exists_selections`), whatever the indentation.  So the whole text is scanned
  into tokens that derive `written` (`exists_document`).
-/
import QueryShapes.Proofs.Document.Legality

namespace QueryShapes.Executable

open Sdl (Token)
open Document (Piece argumentText? parenthesized fieldText selectionLines braces render)

/-! ## The document as it is written -/

/-- An argument as it is written; one that is left to its default is not. -/
def writtenArgument? (a : FieldArgument) : Option (String × Value) :=
  match a.value with
  | .literal l => some (a.name, .ofLiteral l)
  | .documentVariable v => some (a.name, .var v)
  | .default | .parameter _ | .unbound => none

def writtenSelections : List QueryShapes.Selection → List Selection
  | [] => []
  | .field f subs :: rest =>
    .field f.aliasName f.name (f.arguments.filterMap writtenArgument?) []
      (writtenSelections subs) :: writtenSelections rest
  | .spread name _ :: rest => .spread name [] :: writtenSelections rest
  | .inline condition subs :: rest =>
    .inline (some condition) [] (writtenSelections subs) :: writtenSelections rest
  | .marker _ condition subs :: rest =>
    .inline (some condition) [] (writtenSelections subs) :: writtenSelections rest

def writtenVariable (d : VariableDeclaration) : VariableDefinition := ⟨d.name, d.type, none, []⟩

def writtenKind : OperationKind → OperationType
  | .query => .query
  | .mutation => .mutation

/-- A compiled operation and its fragments as they are written. -/
def written (query : CompiledQuery) : Document :=
  .operation (writtenKind query.selectionSet.kind) query.selectionSet.operationName
      (query.declarations.map writtenVariable) []
      (writtenSelections query.selectionSet.selections) ::
    query.fragments.map fun d =>
      .fragment d.name d.typeCondition [] (writtenSelections d.selections)

/-! ## Types, arguments and variables -/

theorem text_ofName (name : String) : (FieldType.ofName name).text = name := by
  have hname := FieldType.innerName_ofName name
  unfold FieldType.ofName at hname ⊢
  repeat' split
  all_goals simp_all [FieldType.text, FieldType.innerName]

/-- The text of a type that is built of names is made of tokens that derive it. -/
theorem exists_type {t : FieldType} (h : t.Built) :
    ∃ ts, Lexes t.text.toList ts ∧ DerivesType ts t := by
  induction h with
  | @ofName name hv =>
    refine ⟨[.name name], ?_, .named name⟩
    rw [text_ofName]
    exact lexes_name hv
  | @list item _ ih =>
    obtain ⟨ts, hlexes, hderives⟩ := ih
    have htext : (FieldType.list item).text.toList = '[' :: (item.text.toList ++ [']']) := by
      rw [FieldType.text, String.toList_append, String.toList_append]
      rfl
    rw [htext]
    exact ⟨_, (closed_between '[' ']' (by decide) (by decide) hlexes).lexes, .list hderives⟩
  | @required type _ ih =>
    obtain ⟨ts, hlexes, hderives⟩ := ih
    cases hn : type.isNonNull with
    | true =>
      have hsame : type.required = type := by
        cases type <;> first | rfl | cases hn
      rw [hsame]
      exact ⟨ts, hlexes, hderives⟩
    | false =>
      have hmore : type.required = .nonNull type := by
        cases type <;> first | rfl | cases hn
      have hmark : Closed ['!'] [.punctuator '!'] := closed_mark (by decide)
      rw [hmore, FieldType.text, String.toList_append]
      exact ⟨_, (hlexes.append_closed (boundary_cons (by decide)) (List.cons_ne_nil _ _)
        hmark).lexes, .nonNull hn hderives⟩

theorem boundary_parenthesized (items : List String) :
    Boundary (parenthesized items).toList := by
  unfold parenthesized
  split
  · exact boundary_nil
  · rw [String.toList_append, String.toList_append]
    exact boundary_cons (by decide)

/-- Items between parentheses, of which there is one at least. -/
theorem closed_parenthesized {α : Type} {text : α → String} {tokens : α → List Token}
    {items : List α} (hne : items ≠ []) (h : ∀ x ∈ items, Lexes (text x).toList (tokens x)) :
    Closed (parenthesized (items.map text)).toList
      (.punctuator '(' :: (items.flatMap tokens ++ [Token.punctuator ')'])) := by
  have htext : (parenthesized (items.map text)).toList =
      '(' :: ((", ".intercalate (items.map text)).toList ++ [')']) := by
    rw [parenthesized, if_neg (by simpa using hne), String.toList_append, String.toList_append]
    rfl
  rw [htext]
  exact closed_between '(' ')' (by decide) (by decide) (lexes_joined h)

/-- A variable as the value of an argument. -/
theorem lexes_variable {name : String} (h : Name.isValid name = true) :
    Lexes ("$" ++ name).toList [.punctuator '$', .name name] := by
  rw [String.toList_append]
  exact (closed_mark (by decide)).append_lexes (lexes_name h)

/-- The text of an argument that is written, and how it is derived. -/
theorem exists_argument {a : FieldArgument} (h : a.Legal) :
    (argumentText? a = none ∧ writtenArgument? a = none) ∨
      ∃ text ts v, argumentText? a = some text ∧ writtenArgument? a = some (a.name, v) ∧
        Lexes text.toList (.name a.name :: .punctuator ':' :: ts) ∧ DerivesValue false ts v := by
  unfold argumentText? writtenArgument?
  cases hv : a.value with
  | literal l =>
    obtain ⟨ts, hlexes, hderives⟩ := exists_constant (h.literals l hv) false
    exact Or.inr ⟨_, ts, _, rfl, rfl, lexes_entry h.name hlexes, hderives⟩
  | documentVariable v =>
    have hlexes := lexes_entry h.name (lexes_variable (h.names v hv))
    have htext : a.name ++ ": $" ++ v = a.name ++ ": " ++ ("$" ++ v) := by
      refine String.toList_inj.mp ?_
      simp
    refine Or.inr ⟨_, _, _, rfl, rfl, ?_, .var rfl v⟩
    rw [htext]
    exact hlexes
  | _ => exact Or.inl ⟨rfl, rfl⟩

/-- The written arguments of a legal list: their texts with the tokens of the entries. -/
theorem exists_entries {as : List FieldArgument} (h : ∀ a ∈ as, a.Legal) :
    ∃ parts : List (String × String × List Token × Value),
      parts.map Prod.fst = as.filterMap argumentText? ∧
      parts.map (entryValue ·.2) = as.filterMap writtenArgument? ∧
      ∀ p ∈ parts, Lexes p.1.toList (entryTokens p.2) ∧ DerivesValue false p.2.2.1 p.2.2.2 := by
  induction as with
  | nil => exact ⟨[], rfl, rfl, by simp⟩
  | cons a rest ih =>
    rw [List.forall_mem_cons] at h
    obtain ⟨parts, htexts, hvalues, hparts⟩ := ih h.2
    rcases exists_argument h.1 with ⟨htext, hvalue⟩ | ⟨text, ts, v, htext, hvalue, hlexes, hderives⟩
    · refine ⟨parts, ?_, ?_, hparts⟩
      · rw [List.filterMap_cons_none htext, htexts]
      · rw [List.filterMap_cons_none hvalue, hvalues]
    · refine ⟨(text, a.name, ts, v) :: parts, ?_, ?_, ?_⟩
      · rw [List.filterMap_cons_some htext, List.map_cons, htexts]
      · rw [List.filterMap_cons_some hvalue, List.map_cons, hvalues]
        rfl
      · exact List.forall_mem_cons.mpr ⟨⟨hlexes, hderives⟩, hparts⟩

/-- The arguments of a legal field are read back. -/
theorem exists_arguments {as : List FieldArgument} (h : ∀ a ∈ as, a.Legal) :
    ∃ ts, Lexes (parenthesized (as.filterMap argumentText?)).toList ts ∧
      DerivesArguments false ts (as.filterMap writtenArgument?) := by
  obtain ⟨parts, htexts, hvalues, hparts⟩ := exists_entries h
  rw [← htexts, ← hvalues]
  by_cases hne : parts = []
  · subst hne
    exact ⟨[], closed_nil.lexes, .absent⟩
  · have hclosed := closed_parenthesized hne fun p hp => (hparts p hp).1
    have hvalue : ∀ e ∈ parts.map Prod.snd, DerivesValue false e.2.1 e.2.2 := by
      intro e he
      obtain ⟨p, hp, rfl⟩ := List.mem_map.mp he
      exact (hparts p hp).2
    have hpresent := DerivesArguments.present (by simpa using hne) hvalue
    rw [List.flatMap_map, List.map_map] at hpresent
    exact ⟨_, hclosed.lexes, hpresent⟩

/-- The variables of a legal operation are read back. -/
theorem exists_variables {declarations : List VariableDeclaration}
    (h : ∀ d ∈ declarations, d.Legal) :
    ∃ ts, Lexes (parenthesized (declarations.map fun v =>
        "$" ++ v.name ++ ": " ++ v.type.text)).toList ts ∧
      DerivesVariables ts (declarations.map writtenVariable) := by
  by_cases hne : declarations = []
  · subst hne
    exact ⟨[], closed_nil.lexes, .absent⟩
  · have htype : ∀ d ∈ declarations, ∃ ts, Lexes d.type.text.toList ts ∧ DerivesType ts d.type :=
      fun d hd => exists_type (h d hd).type
    choose! tokens hlexes hderives using htype
    have hvariable : ∀ d ∈ declarations, Lexes ("$" ++ d.name ++ ": " ++ d.type.text).toList
        (.punctuator '$' :: .name d.name :: .punctuator ':' :: tokens d) := by
      intro d hd
      have hentry := lexes_entry (h d hd).name (hlexes d hd)
      have hdollar : Closed ['$'] [.punctuator '$'] := closed_mark (by decide)
      have hwhole := hdollar.append_lexes hentry
      simpa [String.toList_append] using hwhole
    have hclosed := closed_parenthesized hne hvariable
    have hdefinition : ∀ p ∈ declarations.map fun d =>
        (.punctuator '$' :: .name d.name :: .punctuator ':' :: tokens d, writtenVariable d),
        DerivesVariable p.1 p.2 := by
      intro p hp
      obtain ⟨d, hd, rfl⟩ := List.mem_map.mp hp
      have hderived : DerivesVariable _ ⟨d.name, _, none, []⟩ :=
        .intro (hderives d hd) .absent .nil
      rwa [List.append_nil, List.append_nil] at hderived
    have hpresent := DerivesVariables.present (by simpa using hne) hdefinition
    rw [List.flatMap_map, List.map_map] at hpresent
    exact ⟨_, hclosed.lexes, hpresent⟩

/-! ## Selections -/

/-- The text of a field is read back, but for its selections. -/
theorem exists_field {s : Schema} {f : Field} (h : f.Legal s) :
    ∃ as, Lexes (fieldText f).toList (aliasTokens f.aliasName ++ .name f.name :: as) ∧
      DerivesArguments false as (f.arguments.filterMap writtenArgument?) := by
  obtain ⟨as, hlexes, hderives⟩ := exists_arguments h.arguments
  refine ⟨as, ?_, hderives⟩
  have hname : Lexes (f.name ++ parenthesized (f.arguments.filterMap argumentText?)).toList
      (.name f.name :: as) := by
    rw [String.toList_append]
    exact (lexes_name h.name).append (boundary_parenthesized _) hlexes
  unfold fieldText
  cases halias : f.aliasName with
  | none => simpa [aliasTokens] using hname
  | some a =>
    have hentry := lexes_entry (h.aliases a halias) hname
    simpa [aliasTokens] using hentry

section Pieces

variable (pretty : Bool)

/-- The characters of pieces of a document. -/
def pieceChars (pieces : List Piece) : List Char :=
  pieces.flatMap fun p => (if pretty then p.pretty else p.compact).toList

theorem toList_render (pieces : List Piece) :
    (render pretty pieces).toList = pieceChars pretty pieces := by
  rw [render, String.toList_join, List.flatMap_map]
  cases pretty <;> rfl

theorem pieceChars_append (as bs : List Piece) :
    pieceChars pretty (as ++ bs) = pieceChars pretty as ++ pieceChars pretty bs :=
  List.flatMap_append

theorem pieceChars_cons (p : Piece) (rest : List Piece) :
    pieceChars pretty (p :: rest) = pieceChars pretty [p] ++ pieceChars pretty rest :=
  pieceChars_append pretty [p] rest

theorem pieceChars_text (s : String) : pieceChars pretty [.text s] = s.toList := by
  cases pretty <;> simp [pieceChars, Piece.pretty, Piece.compact]

/-- What breaks a text: separators, of which there is one at least. -/
structure Blank (cs : List Char) : Prop where
  closed : Closed cs []
  boundary : Boundary cs
  nonempty : cs ≠ []

theorem Blank.cons {c : Char} {cs : List Char} (hr : runsOn c = false)
    (h : (c :: cs).all isSeparator = true) : Blank (c :: cs) :=
  ⟨closed_separators h, boundary_cons hr, List.cons_ne_nil _ _⟩

theorem pieceChars_line (indent : Nat) :
    pieceChars true [.line indent] = '\n' :: List.replicate (2 * indent) ' ' ∧
      pieceChars false [.line indent] = [' '] := by
  constructor <;> simp [pieceChars, Piece.pretty, Piece.compact]

theorem pieceChars_gap :
    pieceChars true [.gap] = ['\n', '\n'] ∧ pieceChars false [.gap] = [' '] := by
  constructor <;> simp [pieceChars, Piece.pretty, Piece.compact]

theorem blank_line (indent : Nat) : Blank (pieceChars pretty [.line indent]) := by
  cases pretty with
  | true =>
    rw [(pieceChars_line indent).1]
    refine .cons (by decide) ?_
    rw [List.all_cons, List.all_replicate]
    split <;> rfl
  | false =>
    rw [(pieceChars_line indent).2]
    exact .cons (by decide) (by decide)

theorem blank_gap : Blank (pieceChars pretty [.gap]) := by
  cases pretty with
  | true =>
    rw [pieceChars_gap.1]
    exact .cons (by decide) (by decide)
  | false =>
    rw [pieceChars_gap.2]
    exact .cons (by decide) (by decide)

/-- Lines between braces. -/
theorem closed_braces (indent : Nat) {lines : List Piece} (hne : lines ≠ []) {ts : List Token}
    (h : Lexes (pieceChars pretty lines) ts) :
    Closed (pieceChars pretty (braces indent lines))
      (.punctuator '{' :: (ts ++ [Token.punctuator '}'])) := by
  have hbreak := blank_line pretty indent
  have hopening : Closed ['{'] [.punctuator '{'] := closed_mark (by decide)
  have hclosing : Closed ['}'] [.punctuator '}'] := closed_mark (by decide)
  have hlines := (h.append_closed hbreak.boundary hbreak.nonempty hbreak.closed).append hclosing
  have hwhole := hopening.append hlines
  have hpieces : braces indent lines =
      [Piece.text "\x7b"] ++ ((lines ++ [Piece.line indent]) ++ [Piece.text "\x7d"]) := by
    unfold braces
    rw [if_neg (by simpa using hne)]
    rfl
  rw [hpieces]
  simp only [pieceChars_append, pieceChars_text]
  simpa using hwhole

/-- A text on a line of its own, with more behind it. -/
theorem lexes_line (indent : Nat) {text : String} {rest : List Piece} {ts : List Token}
    (h : Lexes (text.toList ++ pieceChars pretty rest) ts) :
    Boundary (pieceChars pretty (.line indent :: .text text :: rest)) ∧
      Lexes (pieceChars pretty (.line indent :: .text text :: rest)) ts := by
  have hbreak := blank_line pretty indent
  rw [pieceChars_cons, pieceChars_cons pretty (.text text), pieceChars_text]
  exact ⟨hbreak.boundary.append_of_ne_nil hbreak.nonempty, hbreak.closed.append_lexes h⟩

end Pieces

theorem selectionLines_ne_nil {indent : Nat} {selections : List QueryShapes.Selection}
    (hne : selections ≠ []) : selectionLines indent selections ≠ [] := by
  cases selections with
  | nil => exact absurd rfl hne
  | cons s rest =>
    cases s <;>
    · rw [selectionLines]
      exact List.cons_ne_nil _ _

theorem writtenSelections_ne_nil {selections : List QueryShapes.Selection}
    (hne : selections ≠ []) : writtenSelections selections ≠ [] := by
  cases selections with
  | nil => exact absurd rfl hne
  | cons s rest =>
    cases s <;>
    · rw [writtenSelections]
      exact List.cons_ne_nil _ _

/-- The lines of a selection list are made of tokens that derive its selections, however they are
    indented. -/
structure LinesRead (pretty : Bool) (selections : List QueryShapes.Selection)
    (parts : List (List Token × Selection)) : Prop where
  values : parts.map Prod.snd = writtenSelections selections
  derives : ∀ p ∈ parts, DerivesSelection p.1 p.2
  lexes : ∀ indent, Boundary (pieceChars pretty (selectionLines indent selections)) ∧
    Lexes (pieceChars pretty (selectionLines indent selections)) (parts.flatMap Prod.fst)

namespace LinesRead

variable {pretty : Bool} {subs rest : List QueryShapes.Selection}
  {parts others : List (List Token × Selection)}

theorem nil : LinesRead pretty [] [] := by
  refine ⟨by rw [writtenSelections, List.map_nil], by simp, fun indent => ?_⟩
  rw [selectionLines]
  exact ⟨boundary_nil, closed_nil.lexes⟩

theorem ne_nil (h : LinesRead pretty subs parts) (hne : subs ≠ []) : parts ≠ [] := by
  rintro rfl
  exact writtenSelections_ne_nil hne h.values.symm

/-- The lines between braces are a selection set. -/
theorem closed_block (h : LinesRead pretty subs parts) (hne : subs ≠ []) (indent : Nat) :
    Closed (pieceChars pretty (braces indent (selectionLines (indent + 1) subs)))
      (blockTokens parts) :=
  closed_braces pretty indent (selectionLines_ne_nil hne) (h.lexes (indent + 1)).2

theorem spread {name condition : String} (hn : IsFragmentName name)
    (hr : LinesRead pretty rest others) :
    LinesRead pretty (.spread name condition :: rest)
      (([.spread, .name name], .spread name []) :: others) := by
  refine ⟨?_, List.forall_mem_cons.mpr ⟨.spread hn.2 .nil, hr.derives⟩, fun indent => ?_⟩
  · rw [writtenSelections, List.map_cons, hr.values]
  · obtain ⟨hboundary, hrest⟩ := hr.lexes indent
    have hname := (lexes_name hn.1).append hboundary hrest
    rw [selectionLines]
    refine lexes_line pretty indent ?_
    simpa using closed_spread.append_lexes hname

theorem inline {condition : String} (hc : Name.isValid condition = true) (hne : subs ≠ [])
    (hs : LinesRead pretty subs parts) (hr : LinesRead pretty rest others) :
    LinesRead pretty (.inline condition subs :: rest)
      ((.spread :: (conditionTokens (some condition) ++ ([] ++ blockTokens parts)),
        .inline (some condition) [] (writtenSelections subs)) :: others) := by
  have hderives := DerivesSelection.inline (some condition) .nil (hs.ne_nil hne) hs.derives
  rw [hs.values] at hderives
  refine ⟨?_, List.forall_mem_cons.mpr ⟨hderives, hr.derives⟩, fun indent => ?_⟩
  · rw [writtenSelections, List.map_cons, hr.values]
  · have hon : Name.isValid "on" = true := by decide
    have hblock := (hs.closed_block hne indent).append_lexes (hr.lexes indent).2
    have hcondition := lexes_word hon (lexes_word hc hblock)
    have hline := closed_spread.append_lexes (closed_blank.append_lexes hcondition)
    rw [selectionLines]
    refine lexes_line pretty indent ?_
    rw [pieceChars_append]
    simpa [conditionTokens] using hline

theorem field {s : Schema} {f : Field} (hf : f.Legal s) (hs : LinesRead pretty subs parts)
    (hr : LinesRead pretty rest others) :
    ∃ ts, LinesRead pretty (.field f subs :: rest)
      ((ts, .field f.aliasName f.name (f.arguments.filterMap writtenArgument?) []
        (writtenSelections subs)) :: others) := by
  obtain ⟨as, hlexes, harguments⟩ := exists_field hf
  by_cases hne : subs = []
  · subst hne
    have hderives : DerivesSelection _ (.field f.aliasName f.name _ [] []) :=
      .leaf f.aliasName harguments .nil
    rw [writtenSelections]
    refine ⟨_, ?_, List.forall_mem_cons.mpr ⟨hderives, hr.derives⟩, fun indent => ?_⟩
    · rw [writtenSelections, List.map_cons, hr.values, writtenSelections]
    · obtain ⟨hboundary, hrest⟩ := hr.lexes indent
      rw [selectionLines]
      refine lexes_line pretty indent ?_
      simpa using hlexes.append hboundary hrest
  · have hderives : DerivesSelection _ (.field f.aliasName f.name _ [] _) :=
      .field f.aliasName harguments .nil (hs.ne_nil hne) hs.derives
    rw [hs.values] at hderives
    refine ⟨_, ?_, List.forall_mem_cons.mpr ⟨hderives, hr.derives⟩, fun indent => ?_⟩
    · rw [writtenSelections, List.map_cons, hr.values]
    · have hblock := (hs.closed_block hne indent).append_lexes (hr.lexes indent).2
      have hline := hlexes.append (boundary_cons (by decide)) (closed_blank.append_lexes hblock)
      rw [selectionLines, if_neg (by simpa using hne)]
      refine lexes_line pretty indent ?_
      rw [pieceChars_append, pieceChars_cons, pieceChars_text]
      simpa using hline

end LinesRead

/-- The lines of a legal selection list are read. -/
theorem exists_selections (pretty : Bool) {s : Schema} {selections : List QueryShapes.Selection}
    (h : QueryShapes.Selection.Legal s selections) :
    ∃ parts, LinesRead pretty selections parts := by
  induction h with
  | nil => exact ⟨[], .nil⟩
  | field hf _ _ ihs ihr =>
    obtain ⟨parts, hs⟩ := ihs
    obtain ⟨others, hr⟩ := ihr
    obtain ⟨ts, hfield⟩ := hs.field hf hr
    exact ⟨_, hfield⟩
  | spread hn _ ihr =>
    obtain ⟨others, hr⟩ := ihr
    exact ⟨_, .spread hn hr⟩
  | inline hc hne _ _ ihs ihr =>
    obtain ⟨parts, hs⟩ := ihs
    obtain ⟨others, hr⟩ := ihr
    exact ⟨_, .inline hc hne hs hr⟩
  | @marker name condition subs rest _ hc hne _ _ ihs ihr =>
    obtain ⟨parts, hs⟩ := ihs
    obtain ⟨others, hr⟩ := ihr
    have hinline := LinesRead.inline hc hne hs hr
    refine ⟨_, ?_, hinline.derives, ?_⟩
    · have hvalues := hinline.values
      simp only [writtenSelections] at hvalues ⊢
      exact hvalues
    · have hlexes := hinline.lexes
      simp only [selectionLines] at hlexes ⊢
      exact hlexes

/-- Legal selections between braces are read. -/
theorem exists_block (pretty : Bool) {s : Schema} {selections : List QueryShapes.Selection}
    (h : QueryShapes.Selection.Legal s selections) (hne : selections ≠ []) :
    ∃ ts, Closed (pieceChars pretty (Document.selectionBlock selections)) ts ∧
      DerivesBlock ts (writtenSelections selections) := by
  obtain ⟨parts, hread⟩ := exists_selections pretty h
  have hderives := DerivesBlock.intro (hread.ne_nil hne) hread.derives
  rw [hread.values] at hderives
  exact ⟨_, hread.closed_block hne 0, hderives⟩

/-! ## Whole documents -/

/-- The text of a fragment definition is read. -/
theorem exists_fragment (pretty : Bool) {s : Schema} {d : FragmentDefinition} (h : d.Legal s) :
    ∃ ts, Closed (pieceChars pretty (Document.fragmentPieces d)) ts ∧ DerivesDefinition ts
      (.fragment d.name d.typeCondition [] (writtenSelections d.selections)) := by
  obtain ⟨ss, hblock, hderives⟩ := exists_block pretty h.selections h.nonempty
  have hon : Name.isValid "on" = true := by decide
  have hfragment : Name.isValid "fragment" = true := by decide
  have hcondition := closed_word hon (closed_word h.condition hblock)
  have hwords := closed_word hfragment (closed_word h.name.1 hcondition)
  have hwhole := (blank_gap pretty).closed.append hwords
  refine ⟨_, ?_, .fragment h.name.2 d.typeCondition .nil hderives⟩
  rw [Document.fragmentPieces, pieceChars_cons, pieceChars_cons pretty (.text _), pieceChars_text]
  simpa using hwhole

/-- What stands before the selections of an operation is read. -/
theorem exists_head {set : SelectionSet} (hn : ∀ n, set.operationName = some n →
    Name.isValid n = true) {declarations : List VariableDeclaration}
    (hd : ∀ d ∈ declarations, d.Legal) :
    ∃ vs, Closed (Document.operationHead set declarations).toList
        (.name (writtenKind set.kind).keyword :: (nameTokens set.operationName ++ vs)) ∧
      DerivesVariables vs (declarations.map writtenVariable) := by
  obtain ⟨vs, hlexes, hderives⟩ := exists_variables hd
  refine ⟨vs, ?_, hderives⟩
  have hkeyword : Name.isValid set.kind.keyword = true ∧
      (writtenKind set.kind).keyword = set.kind.keyword := by
    cases set.kind <;> exact ⟨by decide, rfl⟩
  unfold Document.operationHead
  -- the variables, perhaps none, and the blank behind them
  generalize hitems : (declarations.map fun v => "$" ++ v.name ++ ": " ++ v.type.text) = items
    at hlexes
  have hboundary : Boundary [' '] := boundary_cons (by decide)
  have hvariables := hlexes.append_closed hboundary (List.cons_ne_nil _ _) closed_blank
  have hbehind := (boundary_parenthesized items).append hboundary
  rw [hkeyword.2]
  cases hname : set.operationName with
  | none =>
    have hwhole := (lexes_name hkeyword.1).append_closed hbehind (by simp) hvariables
    simpa [nameTokens] using hwhole
  | some n =>
    have hoperation := (lexes_name (hn n hname)).append_closed hbehind (by simp) hvariables
    have hwhole := closed_word hkeyword.1 hoperation
    simpa [nameTokens] using hwhole

/-- The text of a legal operation with its fragments is read, in both layouts. -/
theorem exists_document (pretty : Bool) {s : Schema} {query : CompiledQuery} (h : query.Legal s) :
    ∃ ts, Scans (render pretty (Document.pieces query.selectionSet query.fragments
        query.declarations)).toList ts ∧ DerivesDocument ts (written query) := by
  obtain ⟨vs, hhead, hvariables⟩ := exists_head h.name h.declarations
  obtain ⟨ss, hblock, hselections⟩ := exists_block pretty h.selections h.nonempty
  have hfragment := fun d hd => exists_fragment pretty (h.fragments d hd)
  choose! tokens hclosed hderives using hfragment
  have hfragments : Closed (pieceChars pretty (query.fragments.flatMap Document.fragmentPieces))
      (query.fragments.flatMap tokens) := by
    unfold pieceChars
    rw [List.flatMap_assoc]
    exact closed_flatMap hclosed
  have hwhole := hhead.append (hblock.append hfragments)
  have hoperation : DerivesDefinition _ (.operation _ query.selectionSet.operationName _ [] _) :=
    .operation (writtenKind query.selectionSet.kind) _ hvariables .nil hselections
  have hparts : ∀ p ∈ query.fragments.map fun d => (tokens d, Definition.fragment d.name
      d.typeCondition [] (writtenSelections d.selections)), DerivesDefinition p.1 p.2 := by
    intro p hp
    obtain ⟨d, hd, rfl⟩ := List.mem_map.mp hp
    exact hderives d hd
  have hdocument := DerivesDocument.intro (List.cons_ne_nil (_, _) _)
    (List.forall_mem_cons.mpr ⟨hoperation, hparts⟩)
  rw [List.map_cons, List.map_map, List.flatMap_cons, List.flatMap_map] at hdocument
  refine ⟨_, ?_, hdocument⟩
  rw [toList_render, Document.pieces, pieceChars_cons, pieceChars_text, pieceChars_append]
  simpa using hwhole.lexes.scans

end QueryShapes.Executable
