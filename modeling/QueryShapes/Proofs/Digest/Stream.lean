/-
  What a stream tells.

  A stream that begins with the writes of a value tells which value that is and
  where its writes end: a string ends with a byte that no UTF-8 text holds, and
  the lengths of all other writes are known before they are read.  A list is
  written with its length in a word of 64 bits, so this is about lists that a
  word can count (`Counted`).
-/
import Mathlib.Data.List.Basic
import QueryShapes.Digest.Stream

namespace QueryShapes.Digest

/-! ## Words and strings -/

theorem length_littleEndian64 (w : UInt64) : (littleEndian64 w).length = 8 := by
  simp [littleEndian64]

/-- A number is told from its digits to the base 256. -/
theorem eq_of_digits {n a b : Nat} (ha : a < Nat.pow 256 n) (hb : b < Nat.pow 256 n)
    (h : ∀ i < n, a / Nat.pow 256 i % 256 = b / Nat.pow 256 i % 256) : a = b := by
  induction n generalizing a b with
  | zero => rw [Nat.lt_one_iff.mp ha, Nat.lt_one_iff.mp hb]
  | succ n ih =>
    have hpow : ∀ i, Nat.pow 256 (i + 1) = 256 * Nat.pow 256 i := fun _ => Nat.mul_comm _ _
    rw [hpow] at ha hb
    have hfirst : a % 256 = b % 256 := by simpa using h 0 (Nat.zero_lt_succ n)
    have hrest : a / 256 = b / 256 := by
      refine ih (Nat.div_lt_of_lt_mul ha) (Nat.div_lt_of_lt_mul hb) fun i hi => ?_
      rw [Nat.div_div_eq_div_mul, Nat.div_div_eq_div_mul, ← hpow]
      exact h (i + 1) (Nat.succ_lt_succ hi)
    rw [← Nat.div_add_mod a 256, hrest, hfirst, Nat.div_add_mod]

/-- A word is told from its eight bytes. -/
theorem littleEndian64_injective : Function.Injective littleEndian64 := by
  intro v w h
  apply UInt64.toNat_inj.mp
  refine eq_of_digits (n := 8) v.toNat_lt w.toNat_lt fun i hi => ?_
  have hbyte := List.map_eq_map_iff.mp h i (List.mem_range.mpr hi)
  simpa using congrArg UInt8.toNat hbyte

theorem word_append_inj {v w : UInt64} {r s : Stream} :
    word v ++ r = word w ++ s ↔ v = w ∧ r = s := by
  constructor
  · intro h
    obtain ⟨hbytes, hrest⟩ := List.append_inj (List.cons.inj h).2
      ((length_littleEndian64 v).trans (length_littleEndian64 w).symm)
    exact ⟨littleEndian64_injective hbytes, hrest⟩
  · rintro ⟨rfl, rfl⟩
    rfl

/-- A word can count so far. -/
def Fits (n : Nat) : Prop := n < 0x10000000000000000

instance (n : Nat) : Decidable (Fits n) := inferInstanceAs (Decidable (n < _))

@[simp] theorem fits_iff {n : Nat} : Fits n ↔ n < 0x10000000000000000 := Iff.rfl

theorem number_append_inj {m n : Nat} (hm : Fits m) (hn : Fits n) {r s : Stream} :
    number m ++ r = number n ++ s ↔ m = n ∧ r = s := by
  have hwords : UInt64.ofNat m = UInt64.ofNat n ↔ m = n := by
    rw [← UInt64.toNat_inj, UInt64.toNat_ofNat', UInt64.toNat_ofNat', Nat.mod_eq_of_lt hm,
      Nat.mod_eq_of_lt hn]
  rw [number, number, word_append_inj, hwords]

theorem bool_append_inj {a b : Bool} {r s : Stream} :
    bool a ++ r = bool b ++ s ↔ a = b ∧ r = s := by
  cases a <;> cases b <;> simp [bool, write]

theorem ofNat_ne_endByte {n : Nat} (h : n < 255) : UInt8.ofNat n ≠ 0xFF := by
  intro he
  have hn : n % 256 = 255 := by simpa using congrArg UInt8.toNat he
  omega

/-- The end byte is no byte of a character. -/
theorem endByte_not_mem_utf8EncodeChar (c : Char) : 0xFF ∉ String.utf8EncodeChar c := by
  intro h
  unfold String.utf8EncodeChar at h
  dsimp only at h
  split_ifs at h <;> simp only [List.mem_cons, List.not_mem_nil, or_false] at h
  · exact ofNat_ne_endByte (by omega) h.symm
  · rcases h with h | h <;> exact ofNat_ne_endByte (by omega) h.symm
  · rcases h with h | h | h <;> exact ofNat_ne_endByte (by omega) h.symm
  · rcases h with h | h | h | h <;> exact ofNat_ne_endByte (by omega) h.symm

theorem endByte_not_mem_utf8 (s : String) : 0xFF ∉ utf8 s := by
  unfold utf8
  rw [List.mem_flatMap]
  rintro ⟨c, -, hc⟩
  exact endByte_not_mem_utf8EncodeChar c hc

theorem utf8_injective : Function.Injective utf8 := by
  intro s t h
  rw [← String.toByteArray_inj, ← String.utf8Encode_toList, ← String.utf8Encode_toList]
  exact congrArg List.toByteArray h

/-- Lists that go on to their first end byte are told apart. -/
theorem append_endByte_inj {xs ys r s : List UInt8} (hx : 0xFF ∉ xs) (hy : 0xFF ∉ ys)
    (h : xs ++ 0xFF :: r = ys ++ 0xFF :: s) : xs = ys ∧ r = s := by
  -- a list that ended before the other would put its end byte inside of the other
  induction xs generalizing ys with
  | nil =>
    cases ys with
    | nil => exact ⟨rfl, (List.cons.inj h).2⟩
    | cons y ys => exact absurd ((List.cons.inj h).1 ▸ List.mem_cons_self) hy
  | cons x xs ih =>
    cases ys with
    | nil => exact absurd ((List.cons.inj h).1.symm ▸ List.mem_cons_self) hx
    | cons y ys =>
      obtain ⟨hhead, htail⟩ := List.cons.inj h
      obtain ⟨hrest, hs⟩ := ih (fun hm => hx (List.mem_cons_of_mem _ hm))
        (fun hm => hy (List.mem_cons_of_mem _ hm)) htail
      exact ⟨by rw [hhead, hrest], hs⟩

theorem string_append_inj {s t : String} {r r' : Stream} :
    string s ++ r = string t ++ r' ↔ s = t ∧ r = r' := by
  constructor
  · intro h
    simp only [string, write, List.append_assoc, List.cons_append, List.nil_append,
      List.cons.injEq, true_and] at h
    obtain ⟨hbytes, hrest⟩ := append_endByte_inj (endByte_not_mem_utf8 s) (endByte_not_mem_utf8 t) h
    exact ⟨utf8_injective hbytes, (List.cons.inj hrest).2⟩
  · rintro ⟨rfl, rfl⟩
    rfl

/-! ## Options and lists -/

/-- A stream that begins as `f` writes `a`, or any value of `P`, tells which value that is and
    what follows it. -/
def Recognizable {α : Type} (P : α → Prop) (f : α → Stream) (a : α) : Prop :=
  ∀ b, P b → ∀ r s : Stream, f a ++ r = f b ++ s → a = b ∧ r = s

variable {α : Type} {P : α → Prop} {f : α → Stream}

theorem Recognizable.option {o : Option α} (h : ∀ a ∈ o, Recognizable P f a) :
    Recognizable (fun o => ∀ a ∈ o, P a) (option f) o := by
  intro o' ho' r s he
  cases o with
  | none =>
    cases o' with
    | none => simpa [Digest.option, number_append_inj] using he
    | some b => simp [Digest.option, number_append_inj] at he
  | some a =>
    cases o' with
    | none => simp [Digest.option, number_append_inj] at he
    | some b =>
      simp only [Digest.option, List.append_assoc, List.append_cancel_left_eq] at he
      obtain ⟨rfl, hrest⟩ := h a rfl b (ho' b rfl) r s he
      exact ⟨rfl, hrest⟩

/-- Lists of one length are told apart by the streams of their items. -/
theorem flatMap_append_inj {as bs : List α} (h : ∀ a ∈ as, Recognizable P f a)
    (hb : ∀ b ∈ bs, P b) (hlength : as.length = bs.length) {r s : Stream}
    (he : as.flatMap f ++ r = bs.flatMap f ++ s) : as = bs ∧ r = s := by
  induction as generalizing bs with
  | nil =>
    rw [List.eq_nil_of_length_eq_zero hlength.symm] at he ⊢
    exact ⟨rfl, he⟩
  | cons a as ih =>
    cases bs with
    | nil => cases hlength
    | cons b bs =>
      simp only [List.flatMap_cons, List.append_assoc] at he
      obtain ⟨hhead, htail⟩ := h a List.mem_cons_self b (hb b List.mem_cons_self) _ _ he
      obtain ⟨hrest, hs⟩ := ih (fun a ha => h a (List.mem_cons_of_mem _ ha))
        (fun b hm => hb b (List.mem_cons_of_mem _ hm)) (Nat.succ.inj hlength) htail
      exact ⟨by rw [hhead, hrest], hs⟩

/-- A list that a word can count. -/
def Counted (P : α → Prop) (items : List α) : Prop := Fits items.length ∧ ∀ a ∈ items, P a

theorem Recognizable.list {items : List α} (hn : Fits items.length)
    (h : ∀ a ∈ items, Recognizable P f a) : Recognizable (Counted P) (list f) items := by
  rintro items' ⟨hn', h'⟩ r s he
  rw [Digest.list, Digest.list, List.append_assoc, List.append_assoc,
    number_append_inj hn hn'] at he
  exact flatMap_append_inj h h' he.1 he.2

/-! ## Constants -/

theorem literals_eq (items : List Literal) : literals items = items.flatMap literal := by
  induction items with
  | nil => rw [literals, List.flatMap_nil]
  | cons v rest ih => rw [literals, List.flatMap_cons, ih]

/-- An entry of an object constant: its key and its value. -/
def literalEntry (e : String × Literal) : Stream := string e.1 ++ literal e.2

theorem literalEntries_eq (entries : List (String × Literal)) :
    literalEntries entries = entries.flatMap literalEntry := by
  induction entries with
  | nil => rw [literalEntries, List.flatMap_nil]
  | cons e rest ih =>
    obtain ⟨k, v⟩ := e
    rw [literalEntries, List.flatMap_cons, ih, literalEntry, List.append_assoc]

end QueryShapes.Digest

namespace QueryShapes

open Digest

/-- A word can count every list and every object of the constant. -/
inductive Literal.Counted : Literal → Prop
  | null : Counted .null
  | int (i : Int64) : Counted (.int i)
  | float (x : Double) : Counted (.float x)
  | string (s : String) : Counted (.string s)
  | boolean (b : Bool) : Counted (.boolean b)
  | enum (name : String) : Counted (.enum name)
  | list {items : List Literal} (hn : Fits items.length) (h : ∀ l ∈ items, Counted l) :
    Counted (.list items)
  | object {entries : List (String × Literal)} (hn : Fits entries.length)
      (h : ∀ e ∈ entries, Counted e.2) : Counted (.object entries)

theorem recognizable_literalEntry {e : String × Literal}
    (h : Recognizable Literal.Counted literal e.2) :
    Recognizable (fun e => e.2.Counted) literalEntry e := by
  intro e' he' r s heq
  simp only [literalEntry, List.append_assoc, string_append_inj] at heq
  obtain ⟨hv, hrest⟩ := h e'.2 he' r s heq.2
  exact ⟨Prod.ext heq.1 hv, hrest⟩

/-- A constant is told from its stream. -/
theorem Literal.Counted.recognizable {a : Literal} (ha : a.Counted) :
    Recognizable Literal.Counted literal a := by
  induction ha with
  | null =>
    intro b hb r s h
    cases hb <;> simp_all [literal, number_append_inj]
  | int i =>
    intro b hb r s h
    cases hb with
    | int j =>
      simp only [literal, List.append_assoc, List.append_cancel_left_eq, word_append_inj] at h
      exact ⟨congrArg Literal.int (congrArg Int64.ofUInt64 h.1), h.2⟩
    | _ => simp [literal, number_append_inj] at h
  | float x =>
    intro b hb r s h
    cases hb with
    | float y =>
      simp only [literal, List.append_assoc, List.append_cancel_left_eq, word_append_inj] at h
      exact ⟨congrArg Literal.float (congrArg Double.mk h.1), h.2⟩
    | _ => simp [literal, number_append_inj] at h
  | string t =>
    intro b hb r s h
    cases hb <;> simp_all [literal, number_append_inj, string_append_inj]
  | boolean t =>
    intro b hb r s h
    cases hb <;> simp_all [literal, number_append_inj, bool_append_inj]
  | enum name =>
    intro b hb r s h
    cases hb <;> simp_all [literal, number_append_inj, string_append_inj]
  | list hn _ ih =>
    intro b hb r s h
    cases hb with
    | list hn' h' =>
      simp only [literal, List.append_assoc, List.append_cancel_left_eq,
        number_append_inj hn hn', literals_eq] at h
      obtain ⟨rfl, rfl⟩ := flatMap_append_inj ih h' h.1 h.2
      exact ⟨rfl, rfl⟩
    | _ => simp [literal, number_append_inj] at h
  | object hn _ ih =>
    intro b hb r s h
    cases hb with
    | object hn' h' =>
      simp only [literal, List.append_assoc, List.append_cancel_left_eq,
        number_append_inj hn hn', literalEntries_eq] at h
      obtain ⟨rfl, rfl⟩ := flatMap_append_inj (fun e he => recognizable_literalEntry (ih e he))
        h' h.1 h.2
      exact ⟨rfl, rfl⟩
    | _ => simp [literal, number_append_inj] at h

end QueryShapes
