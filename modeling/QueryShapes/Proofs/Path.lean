/-
  Paths and their texts.

  The text of a path has a slash before the segment of every element, so splitting it
  gives the segments back, behind an empty piece (`splitAtEach_flatMap`).  An element is
  read back from its segment if the segment is not empty, holds no slash and reads as
  what the element is (`Readable`), and every element that is read from a text is of
  this kind.  So a path is read back from its text exactly if all its elements are, and
  one that was read from a text is (`ofText_text`).
-/
import QueryShapes.Path
import QueryShapes.Proofs.Text.Numeral

namespace QueryShapes

open Text (maxIndex IsIndex)

variable {separator : Char} {cs piece : List Char} {pieces : List (List Char)}

/-! ## Splitting -/

/-- Characters before a separator, or before the end, stand in the first piece. -/
theorem splitAtEach_append (h : separator ∉ cs) {rest : List Char}
    (hr : splitAtEach separator rest = [] :: pieces) :
    splitAtEach separator (cs ++ rest) = cs :: pieces := by
  induction cs with
  | nil => exact hr
  | cons c cs ih =>
    rw [List.mem_cons, not_or] at h
    rw [List.cons_append, splitAtEach, if_neg (Ne.symm h.1), ih h.2]

/-- Pieces with a separator before each of them are told apart. -/
theorem splitAtEach_flatMap (h : ∀ piece ∈ pieces, separator ∉ piece) :
    splitAtEach separator (pieces.flatMap fun piece => separator :: piece) = [] :: pieces := by
  induction pieces with
  | nil => rfl
  | cons piece pieces ih =>
    obtain ⟨hpiece, hrest⟩ := List.forall_mem_cons.mp h
    rw [List.flatMap_cons, List.cons_append, splitAtEach, if_pos rfl,
      splitAtEach_append hpiece (ih hrest)]

theorem separator_not_mem_piece (h : piece ∈ splitAtEach separator cs) : separator ∉ piece := by
  induction cs generalizing piece with
  | nil =>
    rw [splitAtEach, List.mem_singleton] at h
    rw [h]
    exact List.not_mem_nil
  | cons c cs ih =>
    rw [splitAtEach] at h
    split at h
    · rcases List.mem_cons.mp h with rfl | h
      · exact List.not_mem_nil
      · exact ih h
    · rename_i hc
      split at h
      · rw [List.mem_singleton] at h
        rw [h, List.mem_singleton]
        exact Ne.symm hc
      · rename_i first others heq
        rw [heq] at ih
        rcases List.mem_cons.mp h with rfl | h
        · rw [List.mem_cons, not_or]
          exact ⟨Ne.symm hc, ih List.mem_cons_self⟩
        · exact ih (List.mem_cons_of_mem _ h)

/-! ## Elements -/

namespace PathElement

/-- An element that is read back from its segment: an index, or a key that is neither empty nor
    holds a slash nor reads as an index. -/
def Readable : PathElement → Prop
  | index i => i ≤ maxIndex
  | key name => name ≠ "" ∧ '/' ∉ name.toList ∧ ¬ IsIndex name.toList

variable {e : PathElement}

theorem ofSegment_index {i : Nat} (h : Text.readIndex? cs = some i) : ofSegment cs = index i := by
  rw [ofSegment, h]

theorem ofSegment_key (h : Text.readIndex? cs = none) : ofSegment cs = key (String.ofList cs) := by
  rw [ofSegment, h]

theorem Readable.ofSegment_segment (h : e.Readable) : ofSegment e.segment = e := by
  cases e with
  | index i => exact ofSegment_index (Text.readIndex?_repr h)
  | key name =>
    rw [segment, ofSegment_key (Text.readIndex?_eq_none_iff.mpr h.2.2), String.ofList_toList]

theorem Readable.segment_ne_nil (h : e.Readable) : e.segment ≠ [] := by
  cases e with
  | index i =>
    rw [segment, Nat.toList_repr]
    exact Nat.toDigits_ne_nil
  | key name =>
    intro hnil
    exact h.1 (String.toList_eq_nil_iff.mp hnil)

theorem Readable.slash_not_mem (h : e.Readable) : '/' ∉ e.segment := by
  cases e with
  | index i =>
    rw [segment, Nat.toList_repr]
    intro hslash
    cases Text.isDigit_of_mem_toDigits hslash
  | key name => exact h.2.1

/-- What a segment stands for is read back. -/
theorem readable_ofSegment (hne : cs ≠ []) (hslash : '/' ∉ cs) : (ofSegment cs).Readable := by
  cases hread : Text.readIndex? cs with
  | some i =>
    rw [ofSegment_index hread]
    exact Text.le_maxIndex_of_readIndex? hread
  | none =>
    rw [ofSegment_key hread]
    refine ⟨?_, ?_, ?_⟩
    · rwa [ne_eq, String.ofList_eq_empty_iff]
    · rwa [String.toList_ofList]
    · rw [String.toList_ofList]
      exact Text.readIndex?_eq_none_iff.mp hread

end PathElement

/-! ## Paths -/

namespace Path

open PathElement

variable {p : Path} {e : PathElement}

theorem readable_of_mem_ofChars (h : e ∈ (ofChars cs).elements) : e.Readable := by
  obtain ⟨piece, hpiece, rfl⟩ := List.mem_map.mp h
  obtain ⟨hmem, hne⟩ := List.mem_filter.mp hpiece
  exact readable_ofSegment (by simpa using hne) (separator_not_mem_piece hmem)

theorem ofChars_chars (h : ∀ e ∈ p.elements, e.Readable) : ofChars p.chars = p := by
  have hsplit : splitAtEach '/' p.chars = [] :: p.elements.map segment := by
    have hpieces : ∀ piece ∈ p.elements.map segment, '/' ∉ piece := by
      intro piece hpiece
      obtain ⟨e, he, rfl⟩ := List.mem_map.mp hpiece
      exact (h e he).slash_not_mem
    have hflat := splitAtEach_flatMap hpieces
    rwa [List.flatMap_map] at hflat
  have hkept : (p.elements.map segment).filter (· ≠ []) = p.elements.map segment := by
    refine List.filter_eq_self.mpr fun piece hpiece => ?_
    obtain ⟨e, he, rfl⟩ := List.mem_map.mp hpiece
    exact decide_eq_true (h e he).segment_ne_nil
  have hread : (p.elements.map segment).map ofSegment = p.elements := by
    rw [List.map_map]
    exact (List.map_congr_left fun e he => (h e he).ofSegment_segment).trans (List.map_id _)
  rw [ofChars, hsplit, List.filter_cons_of_neg (by simp), hkept, hread]

/-- A path is read back from its text exactly if its elements are read back from their segments. -/
theorem ofText_text_iff : ofText p.text = p ↔ ∀ e ∈ p.elements, e.Readable := by
  unfold ofText text
  rw [String.toList_ofList]
  constructor
  · intro h e he
    rw [← h] at he
    exact readable_of_mem_ofChars he
  · exact ofChars_chars

/-- A path that a text stands for is read back from its own text; and a path is read back exactly
    if its indices are 64-bit ones and each of its keys is not empty, holds no slash, and is no
    digits, perhaps behind a plus sign, of the value of an index. -/
theorem ofText_text :
    (∀ s : String, ofText (ofText s).text = ofText s) ∧
      ∀ p : Path, ofText p.text = p ↔
        (∀ i, .index i ∈ p.elements → i ≤ maxIndex) ∧
          ∀ name, .key name ∈ p.elements →
            name ≠ "" ∧ '/' ∉ name.toList ∧ ¬ IsIndex name.toList := by
  constructor
  · intro s
    rw [ofText_text_iff]
    intro e he
    exact readable_of_mem_ofChars he
  · intro p
    rw [ofText_text_iff]
    constructor
    · intro h
      exact ⟨fun i hi => h _ hi, fun name hname => h _ hname⟩
    · rintro ⟨hindex, hkey⟩ e he
      cases e with
      | index i => exact hindex i he
      | key name => exact hkey name he

end Path

end QueryShapes
