/-
  Insertion-ordered maps with string keys, as lists of entries.

  `insert` replaces the value of a key where it stands and appends a new key;
  `ofPairs` therefore keeps the first position and the last value of a key.
-/

namespace QueryShapes

/-- The entries of an insertion-ordered map. -/
abbrev Entries (α : Type) := List (String × α)

namespace Entries

variable {α β : Type}

/-- The value of a key: the first one, should the list repeat it. -/
def get? : Entries α → String → Option α
  | [], _ => none
  | (k, v) :: rest, key => if k = key then some v else get? rest key

/-- Whether the key has a value. -/
def contains (m : Entries α) (key : String) : Bool := (m.get? key).isSome

/-- Gives a key a value, in place if the key is there and at the end otherwise. -/
def insert : Entries α → String → α → Entries α
  | [], key, value => [(key, value)]
  | (k, v) :: rest, key, value =>
    if k = key then (k, value) :: rest else (k, v) :: insert rest key value

/-- The map that results from inserting the pairs one after the other. -/
def ofPairs (pairs : List (String × α)) : Entries α :=
  pairs.foldl (fun m p => m.insert p.1 p.2) []

def keys (m : Entries α) : List String := m.map Prod.fst

def values (m : Entries α) : List α := m.map Prod.snd

@[simp] theorem get?_nil (key : String) : get? ([] : Entries α) key = none := rfl

theorem get?_cons (k : String) (v : α) (m : Entries α) (key : String) :
    get? ((k, v) :: m) key = if k = key then some v else get? m key := rfl

/-- An insertion changes what is found under its key and nothing else. -/
theorem get?_insert (m : Entries α) (key other : String) (value : α) :
    (m.insert key value).get? other = if key = other then some value else m.get? other := by
  induction m with
  | nil => simp [insert, get?]
  | cons p m ih =>
    obtain ⟨k, v⟩ := p
    by_cases hk : k = key
    · subst hk
      simp only [insert, if_pos, get?_cons]
      by_cases h : k = other <;> simp [h]
    · simp only [insert, if_neg hk, get?_cons, ih]
      by_cases h : k = other
      · subst h
        simp [Ne.symm hk]
      · simp [h]

theorem get?_insert_self (m : Entries α) (key : String) (value : α) :
    (m.insert key value).get? key = some value := by
  rw [get?_insert, if_pos rfl]

theorem get?_insert_of_ne (m : Entries α) {key other : String} (value : α) (h : other ≠ key) :
    (m.insert key value).get? other = m.get? other := by
  rw [get?_insert, if_neg (Ne.symm h)]

/-- A value found under a key is the value of one of the entries. -/
theorem mem_of_get? {m : Entries α} {key : String} {value : α} (h : m.get? key = some value) :
    (key, value) ∈ m := by
  induction m with
  | nil => simp at h
  | cons p m ih =>
    obtain ⟨k, v⟩ := p
    rw [get?_cons] at h
    by_cases hk : k = key
    · rw [if_pos hk] at h
      simp_all
    · rw [if_neg hk] at h
      exact List.mem_cons_of_mem _ (ih h)

theorem keys_insert_of_contains {m : Entries α} {key : String} (value : α)
    (h : m.contains key = true) : (m.insert key value).keys = m.keys := by
  induction m with
  | nil => simp [contains] at h
  | cons p m ih =>
    obtain ⟨k, v⟩ := p
    by_cases hk : k = key
    · simp [insert, keys, hk]
    · have : contains m key = true := by simpa [contains, get?_cons, hk] using h
      have ih := ih this
      simp only [keys] at ih
      simp [insert, keys, hk, ih]

end Entries

end QueryShapes
