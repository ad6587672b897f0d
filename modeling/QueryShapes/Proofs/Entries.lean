/-
  Keys of insertion-ordered maps: an insertion appends a new key and moves none,
  and where no key repeats, membership and look-up say the same, in any order.
-/
import Mathlib.Data.List.Nodup
import Mathlib.Data.List.Permutation
import QueryShapes.Entries

namespace QueryShapes.Entries

variable {α β : Type}

theorem contains_insert (m : Entries α) (key other : String) (value : α) :
    (m.insert key value).contains other = (key == other || m.contains other) := by
  unfold contains
  rw [get?_insert]
  by_cases h : key = other <;> simp [h]

theorem mem_keys_iff {m : Entries α} {key : String} : key ∈ m.keys ↔ m.contains key = true := by
  induction m with
  | nil => simp [keys, contains]
  | cons p m ih =>
    obtain ⟨k, v⟩ := p
    simp only [keys, contains] at ih
    simp only [keys, contains, List.map_cons, List.mem_cons, get?_cons]
    by_cases h : k = key
    · simp [h]
    · simp [h, Ne.symm h, ih]

/-- An insertion passes over the entries of other keys. -/
theorem insert_append {m : Entries α} {key : String} (h : m.contains key = false)
    (rest : Entries α) (value : α) : (m ++ rest).insert key value = m ++ rest.insert key value := by
  induction m with
  | nil => rfl
  | cons p m ih =>
    obtain ⟨k, v⟩ := p
    by_cases hk : k = key
    · simp [contains, get?_cons, hk] at h
    · have hm : contains m key = false := by simpa [contains, get?_cons, hk] using h
      rw [List.cons_append, insert, if_neg hk, ih hm, List.cons_append]

theorem insert_of_not_contains {m : Entries α} {key : String} (value : α)
    (h : m.contains key = false) : m.insert key value = m ++ [(key, value)] := by
  have happend := insert_append h [] value
  rwa [List.append_nil] at happend

theorem keys_insert_of_not_contains {m : Entries α} {key : String} (value : α)
    (h : m.contains key = false) : (m.insert key value).keys = m.keys ++ [key] := by
  rw [insert_of_not_contains value h, keys, List.map_append]
  rfl

theorem nodup_keys_insert {m : Entries α} (hm : m.keys.Nodup) (key : String) (value : α) :
    (m.insert key value).keys.Nodup := by
  cases h : m.contains key with
  | true =>
    rw [keys_insert_of_contains value h]
    exact hm
  | false =>
    rw [keys_insert_of_not_contains value h]
    have hk : key ∉ m.keys := by
      rw [mem_keys_iff, h]
      exact Bool.false_ne_true
    rw [← List.concat_eq_append]
    exact hm.concat hk

/-- Where no key repeats, every entry is found under its key. -/
theorem get?_of_mem {m : Entries α} (hm : m.keys.Nodup) {key : String} {value : α}
    (h : (key, value) ∈ m) : m.get? key = some value := by
  induction m with
  | nil => cases h
  | cons p m ih =>
    obtain ⟨k, v⟩ := p
    simp only [keys, List.map_cons, List.nodup_cons] at hm
    rw [get?_cons]
    rcases List.mem_cons.mp h with h | h
    · cases h
      rw [if_pos rfl]
    · have hne : k ≠ key := by
        rintro rfl
        exact hm.1 (List.mem_map.mpr ⟨_, h, rfl⟩)
      rw [if_neg hne]
      exact ih hm.2 h

theorem get?_eq_none_iff {m : Entries α} {key : String} : m.get? key = none ↔ key ∉ m.keys := by
  rw [mem_keys_iff, contains, Bool.not_eq_true, Option.isSome_eq_false_iff,
    Option.isNone_iff_eq_none]

theorem get?_eq_some_iff {m : Entries α} (hm : m.keys.Nodup) {key : String} {value : α} :
    m.get? key = some value ↔ (key, value) ∈ m :=
  ⟨mem_of_get?, get?_of_mem hm⟩

/-- Entries that repeat no key are inserted as they stand. -/
theorem ofPairs_of_nodup {pairs : Entries α} (h : pairs.keys.Nodup) : ofPairs pairs = pairs := by
  have hfrom : ∀ m : Entries α, (keys (m ++ pairs)).Nodup →
      pairs.foldl (fun m p => m.insert p.1 p.2) m = m ++ pairs := by
    intro m hm
    induction pairs generalizing m with
    | nil => rw [List.foldl_nil, List.append_nil]
    | cons p rest ih =>
      rw [keys, List.map_append, List.map_cons] at hm
      have hnew : m.contains p.1 = false := by
        rw [Bool.eq_false_iff, ne_eq, ← mem_keys_iff]
        intro hmem
        exact (List.nodup_append.mp hm).2.2 p.1 hmem p.1 List.mem_cons_self rfl
      have hsplit : m ++ p :: rest = (m ++ [p]) ++ rest := List.append_cons m p rest
      rw [List.foldl_cons, insert_of_not_contains p.2 hnew, hsplit]
      refine ih (List.nodup_cons.mp h).2 (m ++ [p]) ?_
      rwa [← hsplit, keys, List.map_append, List.map_cons]
  exact hfrom [] h

/-- Giving a key the value that it has changes nothing. -/
theorem insert_of_get? {m : Entries α} {key : String} {value : α}
    (h : m.get? key = some value) : m.insert key value = m := by
  induction m with
  | nil => simp at h
  | cons p m ih =>
    obtain ⟨k, v⟩ := p
    rw [get?_cons] at h
    by_cases hk : k = key
    · rw [if_pos hk] at h
      simp_all [insert]
    · rw [if_neg hk] at h
      simp [insert, hk, ih h]

/-- Maps with the same distinct keys in one order are equal if they hold the same values. -/
theorem eq_of_get? {m m' : Entries α} (hkeys : m.keys = m'.keys) (hn : m.keys.Nodup)
    (h : ∀ key, get? m key = get? m' key) : m = m' := by
  induction m generalizing m' with
  | nil =>
    cases m' with
    | nil => rfl
    | cons p m' => simp [keys] at hkeys
  | cons p m ih =>
    cases m' with
    | nil => simp [keys] at hkeys
    | cons p' m' =>
      obtain ⟨k, v⟩ := p
      obtain ⟨k', v'⟩ := p'
      simp only [keys, List.map_cons, List.cons.injEq] at hkeys
      obtain ⟨rfl, hkeys⟩ := hkeys
      simp only [keys, List.map_cons, List.nodup_cons] at hn
      have hv : v = v' := by
        have := h k
        simpa [get?_cons] using this
      have hrest : ∀ key, get? m key = get? m' key := by
        intro key
        by_cases hk : k = key
        · subst hk
          rw [get?_eq_none_iff.mpr hn.1, get?_eq_none_iff.mpr]
          unfold keys
          rw [← hkeys]
          exact hn.1
        · have := h key
          rwa [get?_cons, get?_cons, if_neg hk, if_neg hk] at this
      rw [hv, ih hkeys hn.2 hrest]

/-! ## Look-ups in another order -/

theorem get?_map (f : α → β) (m : Entries α) (key : String) :
    get? (m.map fun p => (p.1, f p.2)) key = (m.get? key).map f := by
  induction m with
  | nil => rfl
  | cons p m ih =>
    obtain ⟨k, v⟩ := p
    rw [List.map_cons, get?_cons, get?_cons, ih]
    split <;> rfl

end QueryShapes.Entries
