/-
  The parser finds every derivation of the grammar (`parse?_of_derives`), so the
  tokens of a document derive one document only (`DerivesDocument.unique`).

  A part is read to its end if what stands behind it does not go on with it:
  `NoStart` says that the tokens behind a part with optional ends do not begin
  like one of these.
-/
import Mathlib.Data.List.Flatten
import QueryShapes.Proofs.Executable.Reading

namespace QueryShapes.Executable

open Sdl (Token)

/-! ## What stands behind a part -/

/-- The tokens do not begin with one of the marks. -/
def NoStart (marks : List Char) (ts : List Token) : Prop :=
  ∀ c ∈ marks, ts.head? ≠ some (.punctuator c)

section NoStart

variable {marks : List Char} {constant : Bool} {ts rest : List Token}

theorem NoStart.mono {marks' : List Char} (h : NoStart marks ts)
    (hm : marks' ⊆ marks) : NoStart marks' ts :=
  fun c hc => h c (hm hc)

theorem noStart_name (name : String) : NoStart marks (.name name :: ts) := by
  intro c _ h
  cases h

theorem noStart_spread : NoStart marks (.spread :: ts) := by
  intro c _ h
  cases h

theorem noStart_punctuator {d : Char} (hd : d ∉ marks) : NoStart marks (.punctuator d :: ts) := by
  intro c hc h
  cases h
  exact hd hc

theorem DerivesArguments.noStart {given : Arguments} (h : DerivesArguments constant ts given)
    (hm : '(' ∉ marks) (hr : NoStart marks rest) : NoStart marks (ts ++ rest) := by
  cases h with
  | absent => exact hr
  | present => exact noStart_punctuator hm

theorem DerivesDirectives.noStart {directives : List Directive}
    (h : DerivesDirectives constant ts directives) (hm : '@' ∉ marks)
    (hr : NoStart marks rest) : NoStart marks (ts ++ rest) := by
  cases h with
  | nil => exact hr
  | cons => exact noStart_punctuator hm

theorem DerivesDefault.noStart {value : Option Value} (h : DerivesDefault ts value)
    (hm : '=' ∉ marks) (hr : NoStart marks rest) : NoStart marks (ts ++ rest) := by
  cases h with
  | absent => exact hr
  | present => exact noStart_punctuator hm

end NoStart

/-! ## Lists of parts -/

theorem length_le_of_mem {α : Type} {parts : List (List Token × α)} {p : List Token × α}
    (hp : p ∈ parts) : p.1.length ≤ (parts.flatMap Prod.fst).length := by
  obtain ⟨before, after, rfl⟩ := List.append_of_mem hp
  simp only [List.flatMap_append, List.flatMap_cons, List.length_append]
  omega

theorem length_le_flatMap {α : Type} {parts : List (List Token × α)}
    (h : ∀ p ∈ parts, p.1 ≠ []) : parts.length ≤ (parts.flatMap Prod.fst).length := by
  induction parts with
  | nil => exact Nat.zero_le _
  | cons p rest ih =>
    have hp := List.length_pos_iff.mpr (h p List.mem_cons_self)
    have hrest := ih fun q hq => h q (List.mem_cons_of_mem _ hq)
    simp only [List.flatMap_cons, List.length_append, List.length_cons]
    omega

/-- Items are read up to their closing token, if each is read where the next one or the closing
    token follows. -/
theorem upTo_append {α : Type} {item : List Token → Option (α × List Token)} {closing : Token}
    (follow : List Token → Prop) {parts : List (List Token × α)}
    (hitem : ∀ p ∈ parts, ∀ rest, follow rest → item (p.1 ++ rest) = some (p.2, rest))
    (hstart : ∀ p ∈ parts, ∀ rest, (p.1 ++ rest).head? ≠ some closing ∧ follow (p.1 ++ rest))
    (hclosing : ∀ rest, follow (closing :: rest)) {fuel : Nat} (hf : parts.length < fuel)
    (rest : List Token) :
    upTo item closing fuel (parts.flatMap Prod.fst ++ closing :: rest) =
      some (parts.map Prod.snd, rest) := by
  induction parts generalizing fuel with
  | nil =>
    obtain ⟨n, rfl⟩ : ∃ n, fuel = n + 1 := ⟨fuel - 1, by omega⟩
    simp [upTo]
  | cons p others ih =>
    obtain ⟨n, rfl⟩ : ∃ n, fuel = n + 1 := ⟨fuel - 1, by omega⟩
    have hn : others.length < n := by
      rw [List.length_cons] at hf
      omega
    have hothers := ih (fun q hq => hitem q (List.mem_cons_of_mem _ hq))
      (fun q hq => hstart q (List.mem_cons_of_mem _ hq)) hn
    have hnext : follow (others.flatMap Prod.fst ++ closing :: rest) := by
      cases others with
      | nil => exact hclosing rest
      | cons q qs =>
        rw [List.flatMap_cons, List.append_assoc]
        exact (hstart q (by simp) _).2
    rw [List.flatMap_cons, List.append_assoc, upTo, if_neg (hstart p List.mem_cons_self _).1,
      hitem p List.mem_cons_self _ hnext]
    simp [hothers]

theorem someUpTo_append {α : Type} {item : List Token → Option (α × List Token)} {closing : Token}
    (follow : List Token → Prop) {parts : List (List Token × α)} (hne : parts ≠ [])
    (hitem : ∀ p ∈ parts, ∀ rest, follow rest → item (p.1 ++ rest) = some (p.2, rest))
    (hstart : ∀ p ∈ parts, ∀ rest, (p.1 ++ rest).head? ≠ some closing ∧ follow (p.1 ++ rest))
    (hclosing : ∀ rest, follow (closing :: rest)) {fuel : Nat} (hf : parts.length < fuel)
    (rest : List Token) :
    someUpTo item closing fuel (parts.flatMap Prod.fst ++ closing :: rest) =
      some (parts.map Prod.snd, rest) := by
  rw [someUpTo, upTo_append follow hitem hstart hclosing hf]
  simp [hne]

theorem optional_absent {α : Type} {opening : Token} {part : List Token → Option (α × List Token)}
    {absent : α} {ts : List Token} (h : ts.head? ≠ some opening) :
    optional opening part absent ts = some (absent, ts) :=
  if_neg h

theorem optional_present {α : Type} {opening : Token} {part : List Token → Option (α × List Token)}
    {absent : α} {ts : List Token} : optional opening part absent (opening :: ts) = part ts :=
  if_pos rfl

/-! ## Values -/

theorem DerivesValue.start {constant : Bool} {ts : List Token} {v : Value}
    (h : DerivesValue constant ts v) :
    ts ≠ [] ∧ ∀ rest, NoStart [']'] (ts ++ rest) := by
  cases h with
  | var => exact ⟨List.cons_ne_nil _ _, fun rest => noStart_punctuator (by decide)⟩
  | list => exact ⟨List.cons_ne_nil _ _, fun rest => noStart_punctuator (by decide)⟩
  | object => exact ⟨List.cons_ne_nil _ _, fun rest => noStart_punctuator (by decide)⟩
  | _ =>
    refine ⟨List.cons_ne_nil _ _, fun rest c _ h => ?_⟩
    cases h

theorem wordValue_enum {name : String} (h : name ∉ reserved) : wordValue name = .enum name := by
  simp only [reserved, List.mem_cons, List.not_mem_nil, or_false, not_or] at h
  unfold wordValue
  rw [if_neg h.1, if_neg h.2.1, if_neg h.2.2]

theorem flatMap_entryTokens (entries : List (String × List Token × Value)) :
    entries.flatMap entryTokens =
      (entries.map fun e => (entryTokens e, entryValue e)).flatMap Prod.fst := by
  rw [List.flatMap_map]

/-- Entries are read if their values are. -/
theorem entry_append {value : List Token → Option (Value × List Token)}
    {e : String × List Token × Value} {rest : List Token}
    (h : value (e.2.1 ++ rest) = some (e.2.2, rest)) :
    entry value (entryTokens e ++ rest) = some (entryValue e, rest) := by
  simp [entryTokens, entry, entryValue, h]

/-- The entries as parts, each with its tokens. -/
def entryParts (entries : List (String × List Token × Value)) :
    List (List Token × String × Value) :=
  entries.map fun e => (entryTokens e, entryValue e)

/-- Entries are read up to their closing token. -/
theorem upTo_entries (c : Char) {value : List Token → Option (Value × List Token)}
    {entries : List (String × List Token × Value)}
    (h : ∀ e ∈ entries, ∀ rest, value (e.2.1 ++ rest) = some (e.2.2, rest)) {fuel : Nat}
    (hf : entries.length < fuel) (rest : List Token) :
    upTo (entry value) (.punctuator c) fuel
        (entries.flatMap entryTokens ++ .punctuator c :: rest) =
      some (entries.map entryValue, rest) := by
  have hitem : ∀ p ∈ entryParts entries, ∀ rest, True →
      entry value (p.1 ++ rest) = some (p.2, rest) := by
    intro p hp rest _
    obtain ⟨e, he, rfl⟩ := List.mem_map.mp hp
    exact entry_append (h e he rest)
  have hstart : ∀ p ∈ entryParts entries, ∀ rest,
      (p.1 ++ rest).head? ≠ some (.punctuator c) ∧ True := by
    intro p hp rest
    obtain ⟨e, he, rfl⟩ := List.mem_map.mp hp
    simp [entryTokens]
  have hlength : (entryParts entries).length < fuel := by rwa [entryParts, List.length_map]
  have hparts := upTo_append (fun _ => True) hitem hstart (fun _ => trivial) hlength rest
  rw [entryParts, List.map_map] at hparts
  rw [flatMap_entryTokens, hparts]
  rfl

theorem length_entryTokens (entries : List (String × List Token × Value)) :
    entries.length ≤ (entries.flatMap entryTokens).length := by
  have hne : ∀ p ∈ entryParts entries, p.1 ≠ [] := by
    intro p hp
    obtain ⟨e, he, rfl⟩ := List.mem_map.mp hp
    exact List.cons_ne_nil _ _
  have hlength := length_le_flatMap hne
  rwa [entryParts, List.length_map, ← flatMap_entryTokens] at hlength

theorem length_le_entryTokens {entries : List (String × List Token × Value)}
    {e : String × List Token × Value} (he : e ∈ entries) :
    e.2.1.length + 2 ≤ (entries.flatMap entryTokens).length := by
  obtain ⟨before, after, rfl⟩ := List.append_of_mem he
  simp only [List.flatMap_append, List.flatMap_cons, List.length_append, entryTokens,
    List.length_cons]
  omega

/-- A value is read off its tokens, whatever follows. -/
theorem value_append {constant : Bool} {ts : List Token} {v : Value}
    (h : DerivesValue constant ts v) {fuel : Nat} (hf : ts.length ≤ fuel) (rest : List Token) :
    value constant fuel (ts ++ rest) = some (v, rest) := by
  obtain ⟨n, rfl⟩ : ∃ n, fuel = n + 1 := by
    have := List.length_pos_iff.mpr h.start.1
    exact ⟨fuel - 1, by omega⟩
  induction h generalizing n rest with
  | var hc name => simp [value, hc]
  | int i => simp [value]
  | float negative coefficient exponent => simp [value]
  | string s => simp [value]
  | booleanTrue => simp [value, wordValue]
  | booleanFalse => simp [value, wordValue]
  | null => simp [value, wordValue]
  | enum h => simp [value, wordValue_enum h]
  | @list items h ih =>
    simp only [List.length_cons, List.length_append, List.length_nil] at hf
    have hcount := length_le_flatMap fun p hp => (h p hp).start.1
    obtain ⟨n, rfl⟩ : ∃ k, n = k + 1 := ⟨n - 1, by omega⟩
    have hitem : ∀ p ∈ items, ∀ rest, True →
        value constant (n + 1) (p.1 ++ rest) = some (p.2, rest) := by
      intro p hp rest _
      have := length_le_of_mem hp
      exact ih p hp rest n (by omega)
    have hitems := upTo_append (fun _ => True) hitem
      (fun p hp rest => ⟨(h p hp).start.2 rest ']' (by simp), trivial⟩) (fun _ => trivial)
      (by omega : items.length < n + 1) rest
    simp only [List.cons_append, List.append_assoc, List.nil_append]
    rw [value, hitems]
    rfl
  | @object entries h ih =>
    simp only [List.length_cons, List.length_append, List.length_nil] at hf
    have hcount := length_entryTokens entries
    obtain ⟨n, rfl⟩ : ∃ k, n = k + 1 := ⟨n - 1, by omega⟩
    have hvalue : ∀ e ∈ entries, ∀ rest,
        value constant (n + 1) (e.2.1 ++ rest) = some (e.2.2, rest) := by
      intro e he rest
      have := length_le_entryTokens he
      exact ih e he rest n (by omega)
    have hentries := upTo_entries '}' hvalue (by omega : entries.length < n + 1) rest
    simp only [List.cons_append, List.append_assoc, List.nil_append]
    rw [value, hentries]
    rfl

theorem arguments_append {constant : Bool} {ts : List Token} {given : Arguments}
    (h : DerivesArguments constant ts given) {fuel : Nat} (hf : ts.length ≤ fuel)
    {rest : List Token} (hr : NoStart ['('] rest) :
    arguments constant fuel (ts ++ rest) = some (given, rest) := by
  cases h with
  | absent => exact optional_absent (hr '(' (by simp))
  | @present entries hne h =>
    simp only [List.length_cons, List.length_append, List.length_nil] at hf
    have hcount := length_entryTokens entries
    have hvalue : ∀ e ∈ entries, ∀ rest,
        value constant fuel (e.2.1 ++ rest) = some (e.2.2, rest) := by
      intro e he rest
      have := length_le_entryTokens he
      exact value_append (h e he) (by omega) rest
    have hentries := upTo_entries ')' hvalue (by omega : entries.length < fuel) rest
    simp only [List.cons_append, List.append_assoc, List.nil_append]
    rw [arguments, optional_present, someUpTo, hentries]
    simp [hne]

theorem directives_append {constant : Bool} {ts : List Token} {given : List Directive}
    (h : DerivesDirectives constant ts given) {fuel : Nat} (hf : ts.length ≤ fuel)
    {rest : List Token} (hr : NoStart ['@', '('] rest) :
    directives constant fuel (ts ++ rest) = some (given, rest) := by
  induction h generalizing fuel with
  | nil =>
    have hat := hr '@' (by simp)
    rw [List.nil_append, directives.eq_def]
    split
    · simp at hat
    · simp at hat
    · rfl
  | @cons name as ts given others ha h ih =>
    simp only [List.length_cons, List.length_append] at hf
    obtain ⟨n, rfl⟩ : ∃ n, fuel = n + 1 := ⟨fuel - 1, by omega⟩
    have hbehind : NoStart ['('] (ts ++ rest) :=
      h.noStart (by decide) (hr.mono (by decide))
    have hgiven := arguments_append ha (by omega : as.length ≤ n) hbehind
    have hothers := ih (by omega : ts.length ≤ n)
    simp only [List.cons_append, List.append_assoc]
    rw [directives, hgiven]
    simp [hothers]

/-! ## Types and variables -/

theorem DerivesType.ne_nil {ts : List Token} {t : FieldType} (h : DerivesType ts t) : ts ≠ [] := by
  cases h with
  | nonNull => exact List.append_ne_nil_of_right_ne_nil _ (List.cons_ne_nil _ _)
  | _ => exact List.cons_ne_nil _ _

/-- A type that is read without the mark behind it is read with the mark, or without one. -/
theorem type_of_bareType {n : Nat} {ts rest : List Token} {t : FieldType}
    (h : ∀ rest, bareType (type n) (ts ++ rest) = some (t, rest)) :
    (NoStart ['!'] rest → type (n + 1) (ts ++ rest) = some (t, rest)) ∧
      type (n + 1) (ts ++ (.punctuator '!' :: rest)) = some (.nonNull t, rest) := by
  constructor
  · intro hr
    rw [type, h]
    simp [hr '!' (by simp)]
  · rw [type, h]
    simp

/-- A type is read off its tokens, if no mark follows; one without a mark is read bare. -/
theorem type_append {ts : List Token} {t : FieldType} (h : DerivesType ts t) :
    (t.isNonNull = false → ∀ n, ts.length ≤ n + 1 → ∀ rest,
      bareType (type n) (ts ++ rest) = some (t, rest)) ∧
    ∀ fuel, ts.length ≤ fuel → ∀ rest, NoStart ['!'] rest →
      type fuel (ts ++ rest) = some (t, rest) := by
  have hfuel : ∀ {ts : List Token} {t : FieldType} {fuel : Nat}, DerivesType ts t →
      ts.length ≤ fuel → ∃ n, fuel = n + 1 := by
    intro ts t fuel h hf
    have := List.length_pos_iff.mpr h.ne_nil
    exact ⟨fuel - 1, by omega⟩
  induction h with
  | named name =>
    have hbare : ∀ n rest, bareType (type n) ([Token.name name] ++ rest) =
        some (FieldType.ofName name, rest) := by
      intro n rest
      rw [List.singleton_append, bareType]
    refine ⟨fun _ n _ => hbare n, fun fuel hf rest hr => ?_⟩
    obtain ⟨n, rfl⟩ := hfuel (.named name) hf
    exact (type_of_bareType (hbare n)).1 hr
  | @list ts item h ih =>
    have hbare : ∀ n, ts.length ≤ n → ∀ rest,
        bareType (type n) (Token.punctuator '[' :: (ts ++ [Token.punctuator ']']) ++ rest) =
          some (.list item, rest) := by
      intro n hn rest
      have hitem := ih.2 n hn (.punctuator ']' :: rest) (noStart_punctuator (by decide))
      simp only [List.cons_append, List.append_assoc, List.nil_append]
      rw [bareType, hitem]
      simp
    simp only [List.length_cons, List.length_append, List.length_nil]
    refine ⟨fun _ n hn => hbare n (by omega), fun fuel hf rest hr => ?_⟩
    obtain ⟨n, rfl⟩ : ∃ n, fuel = n + 1 := ⟨fuel - 1, by omega⟩
    exact (type_of_bareType (hbare n (by omega))).1 hr
  | @nonNull ts inner hn h ih =>
    refine ⟨fun hfalse => Bool.noConfusion hfalse, fun fuel hf rest _ => ?_⟩
    rw [List.length_append, List.length_singleton] at hf
    obtain ⟨n, rfl⟩ := hfuel h (by omega : ts.length ≤ fuel)
    rw [List.append_assoc]
    exact (type_of_bareType (ih.1 hn n (by omega))).2

theorem defaultValue_append {ts : List Token} {v : Option Value} (h : DerivesDefault ts v)
    {fuel : Nat} (hf : ts.length ≤ fuel) {rest : List Token} (hr : NoStart ['='] rest) :
    defaultValue fuel (ts ++ rest) = some (v, rest) := by
  cases h with
  | absent => exact optional_absent (hr '=' (by simp))
  | present hv =>
    rw [List.length_cons] at hf
    rw [defaultValue, List.cons_append, optional_present, value_append hv (by omega)]
    rfl

theorem variableDefinition_append {ts : List Token} {d : VariableDefinition}
    (h : DerivesVariable ts d) {fuel : Nat} (hf : ts.length ≤ fuel) {rest : List Token}
    (hr : NoStart ['!', '=', '@', '('] rest) :
    variableDefinition fuel (ts ++ rest) = some (d, rest) := by
  cases h with
  | @intro name type' value' given ts vs ds ht hv hd =>
    simp only [List.length_cons, List.length_append] at hf
    have hds : NoStart ['!', '='] (ds ++ rest) := hd.noStart (by decide) (hr.mono (by decide))
    have hvs : NoStart ['!'] (vs ++ (ds ++ rest)) := hv.noStart (by decide) (hds.mono (by decide))
    have htype := (type_append ht).2 fuel (by omega) _ hvs
    have hvalue := defaultValue_append hv (by omega : vs.length ≤ fuel) (hds.mono (by decide))
    have hgiven := directives_append hd (by omega : ds.length ≤ fuel) (hr.mono (by decide))
    simp only [List.cons_append, List.append_assoc]
    rw [variableDefinition, htype]
    simp [hvalue, hgiven]

theorem DerivesVariable.start {ts : List Token} {d : VariableDefinition}
    (h : DerivesVariable ts d) : ∃ tail, ts = .punctuator '$' :: tail := by
  cases h
  exact ⟨_, rfl⟩

theorem variableDefinitions_append {ts : List Token} {ds : List VariableDefinition}
    (h : DerivesVariables ts ds) {fuel : Nat} (hf : ts.length ≤ fuel) {rest : List Token}
    (hr : NoStart ['('] rest) :
    variableDefinitions fuel (ts ++ rest) = some (ds, rest) := by
  cases h with
  | absent => exact optional_absent (hr '(' (by simp))
  | @present parts hne h =>
    simp only [List.length_cons, List.length_append, List.length_nil] at hf
    have hne' : ∀ p ∈ parts, p.1 ≠ [] := by
      intro p hp
      obtain ⟨tail, htail⟩ := (h p hp).start
      rw [htail]
      exact List.cons_ne_nil _ _
    have hcount := length_le_flatMap hne'
    have hitem : ∀ p ∈ parts, ∀ rest, NoStart ['!', '=', '@', '('] rest →
        variableDefinition fuel (p.1 ++ rest) = some (p.2, rest) := by
      intro p hp rest hr
      have := length_le_of_mem hp
      exact variableDefinition_append (h p hp) (by omega) hr
    have hstart : ∀ p ∈ parts, ∀ rest, (p.1 ++ rest).head? ≠ some (.punctuator ')') ∧
        NoStart ['!', '=', '@', '('] (p.1 ++ rest) := by
      intro p hp rest
      obtain ⟨tail, htail⟩ := (h p hp).start
      rw [htail]
      exact ⟨by simp, noStart_punctuator (by decide)⟩
    have hparts := someUpTo_append _ hne hitem hstart
      (fun _ => noStart_punctuator (by decide)) (by omega : parts.length < fuel) rest
    simp only [List.cons_append, List.append_assoc, List.nil_append]
    rw [variableDefinitions, optional_present, hparts]

/-! ## Selections -/

theorem DerivesSelection.start {ts : List Token} {s : Selection} (h : DerivesSelection ts s) :
    ts ≠ [] ∧ ∀ marks rest, NoStart marks (ts ++ rest) := by
  have haliased : ∀ (aliasName : Option String) name tail,
      aliasTokens aliasName ++ Token.name name :: tail ≠ [] ∧
        ∀ marks rest, NoStart marks (aliasTokens aliasName ++ Token.name name :: tail ++ rest) := by
    intro aliasName name tail
    cases aliasName with
    | none => exact ⟨List.cons_ne_nil _ _, fun marks rest => noStart_name name⟩
    | some other => exact ⟨List.cons_ne_nil _ _, fun marks rest => noStart_name other⟩
  cases h with
  | leaf aliasName => exact haliased aliasName _ _
  | field aliasName => exact haliased aliasName _ _
  | spread => exact ⟨List.cons_ne_nil _ _, fun marks rest => noStart_spread⟩
  | inline => exact ⟨List.cons_ne_nil _ _, fun marks rest => noStart_spread⟩

/-- A name that no colon follows is the name of a field. -/
theorem selection_field (n : Nat) (aliasName : Option String) (name : String) {ts : List Token}
    (h : NoStart [':'] ts) :
    selection (n + 1) (aliasTokens aliasName ++ .name name :: ts) =
      fieldTail (selection n) n aliasName name ts := by
  cases aliasName with
  | some other => simp [aliasTokens, selection]
  | none =>
    rw [aliasTokens, List.nil_append]
    cases ts with
    | nil => simp [selection]
    | cons t ts =>
      cases t with
      | punctuator c =>
        have hc : c ≠ ':' := by
          rintro rfl
          exact h ':' (by simp) rfl
        simp [selection, hc]
      | _ => simp [selection]

theorem selection_inline (n : Nat) (condition : Option String) {ts : List Token}
    (h : ∀ name, ts.head? ≠ some (.name name)) :
    selection (n + 1) (.spread :: (conditionTokens condition ++ ts)) =
      inlineTail (selection n) n condition ts := by
  cases condition with
  | some name => simp [conditionTokens, selection]
  | none =>
    rw [conditionTokens, List.nil_append]
    cases ts with
    | nil => simp [selection]
    | cons t ts =>
      cases t with
      | name word => exact absurd rfl (h word)
      | _ => simp [selection]

section Block

variable {read : List Token → Option (Selection × List Token)}
  {parts : List (List Token × Selection)} {fuel : Nat}

/-- Selections are read up to the closing brace, if each of them is read. -/
theorem someUpTo_selections (hne : parts ≠ []) (h : ∀ p ∈ parts, DerivesSelection p.1 p.2)
    (hread : ∀ p ∈ parts, ∀ rest, NoStart [':', '(', '@', '{'] rest →
      read (p.1 ++ rest) = some (p.2, rest))
    (hf : (parts.flatMap Prod.fst).length < fuel) (rest : List Token) :
    someUpTo read (.punctuator '}') fuel (parts.flatMap Prod.fst ++ .punctuator '}' :: rest) =
      some (parts.map Prod.snd, rest) := by
  have hcount := length_le_flatMap fun p hp => (h p hp).start.1
  exact someUpTo_append _ hne hread
    (fun p hp rest => ⟨(h p hp).start.2 ['}'] rest '}' (by simp), (h p hp).start.2 _ rest⟩)
    (fun _ => noStart_punctuator (by decide)) (by omega) rest

theorem block_append (hne : parts ≠ []) (h : ∀ p ∈ parts, DerivesSelection p.1 p.2)
    (hread : ∀ p ∈ parts, ∀ rest, NoStart [':', '(', '@', '{'] rest →
      read (p.1 ++ rest) = some (p.2, rest))
    (hf : (blockTokens parts).length ≤ fuel) (rest : List Token) :
    block read fuel (blockTokens parts ++ rest) = some (parts.map Prod.snd, rest) := by
  simp only [blockTokens, List.length_cons, List.length_append, List.length_nil] at hf
  simp only [blockTokens, List.cons_append, List.append_assoc, List.nil_append]
  exact someUpTo_selections hne h hread (by omega) rest

end Block

/-- A selection is read off its tokens, if nothing follows that a field could go on with. -/
theorem selection_append {ts : List Token} {s : Selection} (h : DerivesSelection ts s)
    {fuel : Nat} (hf : ts.length ≤ fuel) {rest : List Token}
    (hr : NoStart [':', '(', '@', '{'] rest) : selection fuel (ts ++ rest) = some (s, rest) := by
  induction h generalizing fuel rest with
  | @leaf name as ds given dirs aliasName ha hd =>
    simp only [List.length_append, List.length_cons] at hf
    obtain ⟨n, rfl⟩ := Nat.exists_eq_add_one_of_ne_zero (by omega : fuel ≠ 0)
    have hds : NoStart [':', '('] (ds ++ rest) := hd.noStart (by decide) (hr.mono (by decide))
    have has : NoStart [':'] (as ++ (ds ++ rest)) :=
      ha.noStart (by decide) (hds.mono (by decide))
    simp only [List.cons_append, List.append_assoc]
    rw [selection_field n aliasName name has, fieldTail,
      arguments_append ha (by omega) (hds.mono (by decide))]
    simp [directives_append hd (by omega : ds.length ≤ n) (hr.mono (by decide)),
      optional_absent (hr '{' (by simp))]
  | @field name as ds given dirs aliasName ha hd parts hne h ih =>
    simp only [List.length_append, List.length_cons, blockTokens, List.length_nil] at hf
    obtain ⟨n, rfl⟩ := Nat.exists_eq_add_one_of_ne_zero (by omega : fuel ≠ 0)
    have hblock : NoStart [':', '(', '@'] (blockTokens parts ++ rest) :=
      noStart_punctuator (by decide)
    have hds : NoStart [':', '('] (ds ++ (blockTokens parts ++ rest)) :=
      hd.noStart (by decide) (hblock.mono (by decide))
    have has : NoStart [':'] (as ++ (ds ++ (blockTokens parts ++ rest))) :=
      ha.noStart (by decide) (hds.mono (by decide))
    have hread : ∀ p ∈ parts, ∀ rest, NoStart [':', '(', '@', '{'] rest →
        selection n (p.1 ++ rest) = some (p.2, rest) := by
      intro p hp rest hr
      have := length_le_of_mem hp
      exact ih p hp (by omega) hr
    have hparts := someUpTo_selections hne h hread (by omega : _ < n) rest
    simp only [List.cons_append, List.append_assoc]
    rw [selection_field n aliasName name has, fieldTail,
      arguments_append ha (by omega) (hds.mono (by decide))]
    simp only [directives_append hd (by omega : ds.length ≤ n) (hblock.mono (by decide)),
      Option.bind_eq_bind, Option.bind_some]
    simp only [blockTokens, List.cons_append, List.append_assoc, List.nil_append,
      optional_present, hparts]
    rfl
  | @spread name ds dirs hn hd =>
    simp only [List.length_cons] at hf
    obtain ⟨n, rfl⟩ := Nat.exists_eq_add_one_of_ne_zero (by omega : fuel ≠ 0)
    simp only [List.cons_append]
    rw [selection.eq_def]
    simp [hn, directives_append hd (by omega : ds.length ≤ n) (hr.mono (by decide))]
  | @inline ds dirs condition hd parts hne h ih =>
    simp only [List.length_append, List.length_cons, blockTokens, List.length_nil] at hf
    obtain ⟨n, rfl⟩ := Nat.exists_eq_add_one_of_ne_zero (by omega : fuel ≠ 0)
    have hblock : NoStart ['@', '('] (blockTokens parts ++ rest) :=
      noStart_punctuator (by decide)
    have hname : ∀ name, (ds ++ (blockTokens parts ++ rest)).head? ≠ some (.name name) := by
      intro name
      cases hd <;> simp [blockTokens]
    have hread : ∀ p ∈ parts, ∀ rest, NoStart [':', '(', '@', '{'] rest →
        selection n (p.1 ++ rest) = some (p.2, rest) := by
      intro p hp rest hr
      have := length_le_of_mem hp
      exact ih p hp (by omega) hr
    have hlength : (blockTokens parts).length ≤ n := by
      simp only [blockTokens, List.length_cons, List.length_append, List.length_nil]
      omega
    simp only [List.cons_append, List.append_assoc]
    rw [selection_inline n condition hname, inlineTail,
      directives_append hd (by omega) hblock]
    simp [block_append hne h hread hlength]

/-- A selection set is read off its tokens, whatever follows. -/
theorem DerivesBlock.read {ts : List Token} {selections : List Selection}
    (h : DerivesBlock ts selections) {fuel : Nat} (hf : ts.length ≤ fuel) (rest : List Token) :
    block (selection fuel) fuel (ts ++ rest) = some (selections, rest) := by
  cases h with
  | @intro parts hne h =>
    refine block_append hne h (fun p hp rest hr => selection_append (h p hp) ?_ hr) hf rest
    have := length_le_of_mem hp
    simp only [blockTokens, List.length_cons, List.length_append] at hf
    omega

theorem DerivesBlock.start {ts : List Token} {selections : List Selection}
    (h : DerivesBlock ts selections) : ∃ tail, ts = .punctuator '{' :: tail := by
  cases h
  exact ⟨_, rfl⟩

/-! ## Definitions -/

theorem optionalName_append (name : Option String) {ts : List Token}
    (h : ∀ word, ts.head? ≠ some (.name word)) :
    optionalName (nameTokens name ++ ts) = (name, ts) := by
  cases name with
  | some name => rfl
  | none =>
    rw [nameTokens, List.nil_append]
    cases ts with
    | nil => rfl
    | cons t ts =>
      cases t with
      | name word => exact absurd rfl (h word)
      | _ => rfl

theorem operationType?_keyword (type : OperationType) :
    operationType? type.keyword = some type ∧ type.keyword ≠ "fragment" := by
  cases type <;> decide

/-- A definition is read off its tokens, whatever follows. -/
theorem definition_append {ts : List Token} {d : Definition} (h : DerivesDefinition ts d)
    {fuel : Nat} (hf : ts.length ≤ fuel) (rest : List Token) :
    definition fuel (ts ++ rest) = some (d, rest) := by
  cases h with
  | short hs =>
    have hread := hs.read hf rest
    obtain ⟨tail, rfl⟩ := hs.start
    rw [List.cons_append] at hread ⊢
    rw [definition, hread]
    · rfl
    · simp
  | @operation vs ds ss parameters given selections type name hv hd hs =>
    simp only [List.length_cons, List.length_append] at hf
    obtain ⟨tail, htail⟩ := hs.start
    have hblock : ∀ {marks : List Char}, '{' ∉ marks → NoStart marks (ss ++ rest) := by
      intro marks hm
      rw [htail]
      exact noStart_punctuator hm
    have hds : NoStart ['('] (ds ++ (ss ++ rest)) := hd.noStart (by decide) (hblock (by decide))
    have hname : ∀ word, (vs ++ (ds ++ (ss ++ rest))).head? ≠ some (.name word) := by
      intro word
      rw [htail]
      cases hv <;> cases hd <;> simp
    obtain ⟨htype, hword⟩ := operationType?_keyword type
    simp only [List.cons_append, List.append_assoc]
    rw [definition, if_neg hword, htype, Option.bind_some, operationTail,
      optionalName_append name hname]
    simp [variableDefinitions_append hv (by omega : vs.length ≤ fuel) hds,
      directives_append hd (by omega : ds.length ≤ fuel) (hblock (by decide)),
      hs.read (by omega : ss.length ≤ fuel)]
  | @fragment name ds ss given selections hn condition hd hs =>
    simp only [List.length_cons, List.length_append] at hf
    obtain ⟨tail, htail⟩ := hs.start
    have hblock : NoStart ['@', '('] (ss ++ rest) := by
      rw [htail]
      exact noStart_punctuator (by decide)
    simp only [List.cons_append, List.append_assoc]
    rw [definition, if_pos rfl, fragmentTail]
    simp [hn, directives_append hd (by omega : ds.length ≤ fuel) hblock,
      hs.read (by omega : ss.length ≤ fuel)]

theorem DerivesDefinition.ne_nil {ts : List Token} {d : Definition}
    (h : DerivesDefinition ts d) : ts ≠ [] := by
  cases h with
  | short hs =>
    obtain ⟨tail, rfl⟩ := hs.start
    exact List.cons_ne_nil _ _
  | operation => exact List.cons_ne_nil _ _
  | fragment => exact List.cons_ne_nil _ _

theorem definitions_append {parts : List (List Token × Definition)}
    (h : ∀ p ∈ parts, DerivesDefinition p.1 p.2) {fuel count : Nat}
    (hf : (parts.flatMap Prod.fst).length ≤ fuel) (hcount : parts.length ≤ count) :
    definitions fuel count (parts.flatMap Prod.fst) = some (parts.map Prod.snd) := by
  induction parts generalizing count with
  | nil => cases count <;> rfl
  | cons p others ih =>
    obtain ⟨n, rfl⟩ : ∃ n, count = n + 1 := by
      rw [List.length_cons] at hcount
      exact ⟨count - 1, by omega⟩
    rw [List.flatMap_cons, List.length_append] at hf
    rw [List.length_cons] at hcount
    have hp := h p List.mem_cons_self
    have hothers := ih (fun q hq => h q (List.mem_cons_of_mem _ hq)) (by omega)
      (by omega : others.length ≤ n)
    have hfirst := definition_append hp (by omega : p.1.length ≤ fuel) (others.flatMap Prod.fst)
    rw [List.flatMap_cons]
    cases hts : p.1 ++ others.flatMap Prod.fst with
    | nil => exact absurd (List.append_eq_nil_iff.mp hts).1 hp.ne_nil
    | cons t ts =>
      rw [hts] at hfirst
      rw [definitions, hfirst]
      simp [hothers]

/-! ## Documents -/

/-- Every derivation of a document is found. -/
theorem parse?_of_derives {ts : List Token} {d : Document} (h : DerivesDocument ts d) :
    parse? ts = some d := by
  cases h with
  | @intro parts hne h =>
    have hcount := length_le_flatMap fun p hp => (h p hp).ne_nil
    rw [parse?, definitions_append h (Nat.le_refl _) hcount]
    simp [hne]

/-- Tokens derive one document only. -/
theorem DerivesDocument.unique {ts : List Token} {d d' : Document} (h : DerivesDocument ts d)
    (h' : DerivesDocument ts d') : d = d' :=
  Option.some.inj ((parse?_of_derives h).symm.trans (parse?_of_derives h'))

end QueryShapes.Executable
