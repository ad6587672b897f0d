/-
  Numerals are read back from their digits.

  An index is read exactly from the texts of digits, perhaps behind a plus sign, whose
  value it is (`readIndex?_eq_some_iff`); leading zeros count for nothing, and a value
  that is too large is no index.
-/
import Mathlib.Data.List.TakeWhile
import QueryShapes.Text.Numeral

namespace QueryShapes.Text

variable {cs digits : List Char} {n : Nat}

theorem digitsValue_toDigits (n : Nat) : digitsValue (Nat.toDigits 10 n) = n := by
  have hvalue : digitsValue (Nat.toDigits 10 n) = Nat.ofDigitChars 10 (Nat.toDigits 10 n) 0 := rfl
  rw [hvalue]
  exact Nat.ofDigitChars_toDigits (by decide) (by decide)

theorem isDigit_of_mem_toDigits {n : Nat} {c : Char} (h : c ∈ Nat.toDigits 10 n) :
    isDigit c = true := by
  have hdigit := Nat.isDigit_of_mem_toDigits (by decide) (by decide) h
  simp only [Char.isDigit, Bool.and_eq_true, decide_eq_true_eq] at hdigit
  simp only [isDigit, Bool.and_eq_true, decide_eq_true_eq]
  exact ⟨hdigit.1, hdigit.2⟩

/-! ## Indices -/

/-- One or more digits of a value that an index can have. -/
structure IndexDigits (digits : List Char) : Prop where
  nonempty : digits ≠ []
  digit : ∀ c ∈ digits, isDigit c = true
  value : digitsValue digits ≤ maxIndex

/-- A text that reads as an index: its digits, perhaps behind a plus sign. -/
def IsIndex (cs : List Char) : Prop :=
  ∃ digits, IndexDigits digits ∧ (cs = digits ∨ cs = '+' :: digits)

theorem filter_readDigits?_eq_some_iff : (readDigits? cs).filter (· ≤ maxIndex) = some n ↔
    IndexDigits cs ∧ digitsValue cs = n := by
  unfold readDigits?
  split
  · rename_i h
    rw [List.all_eq_true] at h
    rw [Option.filter_eq_some_iff, Option.some.injEq, decide_eq_true_eq]
    constructor
    · rintro ⟨rfl, hvalue⟩
      exact ⟨⟨h.1, h.2, hvalue⟩, rfl⟩
    · rintro ⟨hdigits, rfl⟩
      exact ⟨rfl, hdigits.value⟩
  · rename_i h
    refine iff_of_false (by simp) ?_
    rintro ⟨hdigits, -⟩
    exact h ⟨hdigits.nonempty, List.all_eq_true.mpr hdigits.digit⟩

/-- An index is read from its digits, with or without a plus sign, and from nothing else. -/
theorem readIndex?_eq_some_iff : readIndex? cs = some n ↔
    ∃ digits, IndexDigits digits ∧ digitsValue digits = n ∧ (cs = digits ∨ cs = '+' :: digits) := by
  unfold readIndex?
  dsimp only
  split
  · rename_i rest
    rw [filter_readDigits?_eq_some_iff]
    constructor
    · rintro ⟨hdigits, hvalue⟩
      exact ⟨rest, hdigits, hvalue, Or.inr rfl⟩
    · rintro ⟨digits, hdigits, hvalue, rfl | heq⟩
      · cases hdigits.digit '+' List.mem_cons_self
      · cases heq
        exact ⟨hdigits, hvalue⟩
  · rename_i hplus
    rw [filter_readDigits?_eq_some_iff]
    constructor
    · rintro ⟨hdigits, hvalue⟩
      exact ⟨cs, hdigits, hvalue, Or.inl rfl⟩
    · rintro ⟨digits, hdigits, hvalue, rfl | heq⟩
      · exact ⟨hdigits, hvalue⟩
      · exact absurd heq (hplus digits)

theorem readIndex?_eq_none_iff : readIndex? cs = none ↔ ¬ IsIndex cs := by
  rw [Option.eq_none_iff_forall_ne_some]
  constructor
  · rintro h ⟨digits, hdigits, htext⟩
    exact h _ (readIndex?_eq_some_iff.mpr ⟨digits, hdigits, rfl, htext⟩)
  · intro h n hn
    obtain ⟨digits, hdigits, -, htext⟩ := readIndex?_eq_some_iff.mp hn
    exact h ⟨digits, hdigits, htext⟩

theorem le_maxIndex_of_readIndex? (h : readIndex? cs = some n) : n ≤ maxIndex := by
  obtain ⟨digits, hdigits, rfl, -⟩ := readIndex?_eq_some_iff.mp h
  exact hdigits.value

/-- An index is read back from its decimal text. -/
theorem readIndex?_repr (h : n ≤ maxIndex) : readIndex? n.repr.toList = some n := by
  have hvalue := digitsValue_toDigits n
  rw [Nat.toList_repr]
  refine readIndex?_eq_some_iff.mpr ⟨Nat.toDigits 10 n, ⟨Nat.toDigits_ne_nil, ?_, ?_⟩, hvalue, ?_⟩
  · intro c hc
    exact isDigit_of_mem_toDigits hc
  · rwa [hvalue]
  · exact Or.inl rfl

end QueryShapes.Text
