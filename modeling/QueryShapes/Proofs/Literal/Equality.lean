/-
  The comparison of constants is symmetric and transitive where no object
  repeats a key, and an equivalence on the regular constants: those that have no
  NaN either.

  An argument takes regular constants only (`regular_of_acceptsLiteral`), as
  long as objects are written with distinct keys.
-/
import Mathlib.Data.List.Perm.Subperm
import QueryShapes.Proofs.Schema.Coercion
import QueryShapes.Selection.Basic

namespace QueryShapes

theorem Double.ieeeEq_trans {x y z : Double} (h : x.ieeeEq y = true) (h' : y.ieeeEq z = true) :
    x.ieeeEq z = true := by
  unfold ieeeEq at h h' ⊢
  simp only [Bool.and_eq_true, Bool.or_eq_true, beq_iff_eq] at h h' ⊢
  obtain ⟨⟨hx, -⟩, h⟩ := h
  obtain ⟨⟨-, hz⟩, h'⟩ := h'
  refine ⟨⟨hx, hz⟩, ?_⟩
  rcases h with rfl | ⟨hx, hy⟩
  · exact h'
  · rcases h' with rfl | ⟨-, hz⟩
    · exact Or.inr ⟨hx, hy⟩
    · exact Or.inr ⟨hx, hz⟩

theorem Double.isNaN_of_isFinite {x : Double} (h : x.isFinite = true) : x.isNaN = false := by
  unfold isFinite at h
  unfold isNaN
  rw [bne_iff_ne] at h
  rw [beq_eq_false_iff_ne.mpr h, Bool.false_and]

namespace Literal

/-- No object repeats a key. -/
inductive DistinctKeys : Literal → Prop
  | null : DistinctKeys .null
  | int (i : Int64) : DistinctKeys (.int i)
  | float (x : Double) : DistinctKeys (.float x)
  | string (s : String) : DistinctKeys (.string s)
  | boolean (b : Bool) : DistinctKeys (.boolean b)
  | enum (name : String) : DistinctKeys (.enum name)
  | list {items : List Literal} (h : ∀ l ∈ items, DistinctKeys l) : DistinctKeys (.list items)
  | object {entries : Entries Literal} (hn : entries.keys.Nodup)
      (h : ∀ e ∈ entries, DistinctKeys e.2) : DistinctKeys (.object entries)

/-- No object repeats a key, and no float is a NaN. -/
inductive Regular : Literal → Prop
  | null : Regular .null
  | int (i : Int64) : Regular (.int i)
  | float {x : Double} (h : x.isNaN = false) : Regular (.float x)
  | string (s : String) : Regular (.string s)
  | boolean (b : Bool) : Regular (.boolean b)
  | enum (name : String) : Regular (.enum name)
  | list {items : List Literal} (h : ∀ l ∈ items, Regular l) : Regular (.list items)
  | object {entries : Entries Literal} (hn : entries.keys.Nodup)
      (h : ∀ e ∈ entries, Regular e.2) : Regular (.object entries)

theorem Regular.distinctKeys {l : Literal} (h : l.Regular) : l.DistinctKeys := by
  induction h with
  | null => exact .null
  | int i => exact .int i
  | float _ => exact .float _
  | string s => exact .string s
  | boolean b => exact .boolean b
  | enum name => exact .enum name
  | list _ ih => exact .list ih
  | object hn _ ih => exact .object hn ih

/-! ## Comparison -/

theorem eqvItems_refl {xs : List Literal} (h : ∀ x ∈ xs, x.eqv x = true) :
    eqvItems xs xs = true := by
  induction xs with
  | nil => rw [eqvItems]
  | cons x xs ih =>
    rw [eqvItems, h x List.mem_cons_self, ih fun y hy => h y (List.mem_cons_of_mem _ hy)]
    rfl

theorem eqvItems_symm {xs ys : List Literal}
    (ih : ∀ x ∈ xs, ∀ y ∈ ys, x.eqv y = true → y.eqv x = true) (h : eqvItems xs ys = true) :
    eqvItems ys xs = true := by
  induction xs generalizing ys with
  | nil =>
    cases ys with
    | nil => exact h
    | cons y ys => simp [eqvItems] at h
  | cons x xs ihx =>
    cases ys with
    | nil => simp [eqvItems] at h
    | cons y ys =>
      rw [eqvItems, Bool.and_eq_true] at h ⊢
      refine ⟨ih x List.mem_cons_self y List.mem_cons_self h.1, ihx ?_ h.2⟩
      exact fun a ha b hb => ih a (List.mem_cons_of_mem _ ha) b (List.mem_cons_of_mem _ hb)

theorem eqvItems_trans {xs ys zs : List Literal}
    (ih : ∀ x ∈ xs, ∀ y z : Literal, x.eqv y = true → y.eqv z = true → x.eqv z = true)
    (h : eqvItems xs ys = true) (h' : eqvItems ys zs = true) : eqvItems xs zs = true := by
  induction xs generalizing ys zs with
  | nil =>
    cases ys with
    | nil => exact h'
    | cons y ys => simp [eqvItems] at h
  | cons x xs ihx =>
    cases ys with
    | nil => simp [eqvItems] at h
    | cons y ys =>
      cases zs with
      | nil => simp [eqvItems] at h'
      | cons z zs =>
        rw [eqvItems, Bool.and_eq_true] at h h' ⊢
        refine ⟨ih x List.mem_cons_self y z h.1 h'.1, ihx ?_ h.2 h'.2⟩
        exact fun a ha => ih a (List.mem_cons_of_mem _ ha)

theorem eqvEntries_iff {xs : List (String × Literal)} {ys : Entries Literal} :
    eqvEntries xs ys = true ↔ ∀ e ∈ xs, ∃ y, ys.get? e.1 = some y ∧ e.2.eqv y = true := by
  induction xs with
  | nil => simp [eqvEntries]
  | cons e xs ih =>
    obtain ⟨k, x⟩ := e
    rw [List.forall_mem_cons, ← ih, eqvEntries, Bool.and_eq_true]
    cases ys.get? k <;> simp

theorem eqv_refl {l : Literal} (h : l.Regular) : l.eqv l = true := by
  induction h with
  | null => simp [eqv]
  | int i => simp [eqv]
  | float h => simp [eqv, Double.ieeeEq_self, h]
  | string s => simp [eqv]
  | boolean b => simp [eqv]
  | enum name => simp [eqv]
  | list h ih =>
    rw [eqv]
    exact eqvItems_refl ih
  | object hn h ih =>
    rw [eqv, Bool.and_eq_true, eqvEntries_iff]
    exact ⟨beq_self_eq_true _, fun e he => ⟨e.2, Entries.get?_of_mem hn he, ih e he⟩⟩

/-- Objects of equally many entries that all have a partner have the same keys. -/
theorem mem_keys_of_partners {xs ys : Entries Literal} (hx : xs.keys.Nodup)
    (hlength : xs.length = ys.length)
    (h : ∀ e ∈ xs, ∃ y, ys.get? e.1 = some y ∧ e.2.eqv y = true) {key : String}
    (hkey : key ∈ ys.keys) : key ∈ xs.keys := by
  have hsub : xs.keys ⊆ ys.keys := by
    intro k hk
    obtain ⟨e, he, rfl⟩ := List.mem_map.mp hk
    obtain ⟨y, hy, -⟩ := h e he
    rw [Entries.mem_keys_iff, Entries.contains, hy]
    rfl
  have hle : ys.keys.length ≤ xs.keys.length := by
    unfold Entries.keys
    rw [List.length_map, List.length_map]
    exact Nat.le_of_eq hlength.symm
  exact ((hx.subperm hsub).perm_of_length_le hle).symm.subset hkey

theorem eqv_symm {a b : Literal} (ha : a.DistinctKeys) (hb : b.DistinctKeys)
    (h : a.eqv b = true) : b.eqv a = true := by
  induction ha generalizing b with
  | null => cases b <;> simp_all [eqv]
  | int i => cases b <;> simp_all [eqv]
  | float x => cases b <;> simp_all [eqv, Double.ieeeEq_comm]
  | string s => cases b <;> simp_all [eqv]
  | boolean x => cases b <;> simp_all [eqv]
  | enum name => cases b <;> simp_all [eqv]
  | @list xs hx ih =>
    cases hb with
    | @list ys hy =>
      rw [eqv] at h ⊢
      exact eqvItems_symm (fun x hx y hxy => ih x hx (hy y hxy)) h
    | _ => simp [eqv] at h
  | @object xs hnx hx ih =>
    cases hb with
    | @object ys hny hy =>
      rw [eqv, Bool.and_eq_true, eqvEntries_iff, beq_iff_eq] at h ⊢
      obtain ⟨hlength, h⟩ := h
      refine ⟨hlength.symm, fun e he => ?_⟩
      have hkey := mem_keys_of_partners hnx hlength h (List.mem_map_of_mem he)
      obtain ⟨e', he', hkeys⟩ := List.mem_map.mp hkey
      obtain ⟨y, hget, hxy⟩ := h e' he'
      rw [hkeys, Entries.get?_of_mem hny he] at hget
      cases hget
      exact ⟨e'.2, hkeys ▸ Entries.get?_of_mem hnx he', ih e' he' (hy e he) hxy⟩
    | _ => simp [eqv] at h

theorem eqv_trans {a b c : Literal} (ha : a.DistinctKeys) (h : a.eqv b = true)
    (h' : b.eqv c = true) : a.eqv c = true := by
  induction ha generalizing b c with
  | null => cases b <;> cases c <;> simp_all [eqv]
  | int i => cases b <;> cases c <;> simp_all [eqv]
  | float x =>
    cases b with
    | float y =>
      cases c with
      | float z =>
        rw [eqv] at h h' ⊢
        exact Double.ieeeEq_trans h h'
      | _ => simp [eqv] at h'
    | _ => simp [eqv] at h
  | string s => cases b <;> cases c <;> simp_all [eqv]
  | boolean x => cases b <;> cases c <;> simp_all [eqv]
  | enum name => cases b <;> cases c <;> simp_all [eqv]
  | @list xs hx ih =>
    cases b with
    | list ys =>
      cases c with
      | list zs =>
        rw [eqv] at h h' ⊢
        exact eqvItems_trans (fun x hx _ _ => ih x hx) h h'
      | _ => simp [eqv] at h'
    | _ => simp [eqv] at h
  | @object xs hnx hx ih =>
    cases b with
    | object ys =>
      cases c with
      | object zs =>
        rw [eqv, Bool.and_eq_true, eqvEntries_iff, beq_iff_eq] at h h' ⊢
        refine ⟨h.1.trans h'.1, fun e he => ?_⟩
        obtain ⟨y, hy, hxy⟩ := h.2 e he
        obtain ⟨z, hz, hyz⟩ := h'.2 _ (Entries.mem_of_get? hy)
        exact ⟨z, hz, ih e he hxy hyz⟩
      | _ => simp [eqv] at h'
    | _ => simp [eqv] at h

/-! ## Admitted constants -/

theorem wellFormed_of_mem_items {items : List Literal}
    (h : Schema.wellFormedItems items = true) : ∀ l ∈ items, Schema.wellFormed l = true := by
  induction items with
  | nil => simp
  | cons l rest ih =>
    rw [Schema.wellFormedItems, Bool.and_eq_true] at h
    exact List.forall_mem_cons.mpr ⟨h.1, ih h.2⟩

theorem wellFormed_of_mem_entries {entries : List (String × Literal)}
    (h : Schema.wellFormedEntries entries = true) :
    ∀ e ∈ entries, Schema.wellFormed e.2 = true := by
  induction entries with
  | nil => simp
  | cons e rest ih =>
    obtain ⟨k, l⟩ := e
    rw [Schema.wellFormedEntries, Bool.and_eq_true, Bool.and_eq_true] at h
    exact List.forall_mem_cons.mpr ⟨h.1.2, ih h.2⟩

theorem regular_of_wellFormed {l : Literal} (hl : l.DistinctKeys)
    (h : Schema.wellFormed l = true) : l.Regular := by
  induction hl with
  | null => exact .null
  | int i => exact .int i
  | float x =>
    rw [Schema.wellFormed] at h
    exact .float (Double.isNaN_of_isFinite h)
  | string s => exact .string s
  | boolean b => exact .boolean b
  | enum name => exact .enum name
  | list hitems ih =>
    rw [Schema.wellFormed] at h
    exact .list fun l hl => ih l hl (wellFormed_of_mem_items h l hl)
  | object hn hentries ih =>
    rw [Schema.wellFormed] at h
    exact .object hn fun e he => ih e he (wellFormed_of_mem_entries h e he)

/-- A constant that an argument admits is regular. -/
theorem regular_of_acceptsLiteral {schema : Schema} {l : Literal} (hl : l.DistinctKeys)
    {type : FieldType} (h : schema.acceptsLiteral type l = true) : l.Regular := by
  induction hl generalizing type with
  | null => exact .null
  | int i => exact .int i
  | float x => exact .float (Double.isNaN_of_isFinite (Schema.isFinite_of_acceptsLiteral h))
  | string s => exact .string s
  | boolean b => exact .boolean b
  | enum name => exact .enum name
  | list hitems ih =>
    rcases Schema.acceptsLiteral_list h with ⟨-, hwell⟩ | ⟨item, -, haccepts⟩
    · exact regular_of_wellFormed (.list hitems) hwell
    · exact .list fun l hl => ih l hl (haccepts l hl)
  | object hn hentries ih =>
    rcases Schema.acceptsLiteral_object hn h with ⟨-, hwell⟩ | ⟨_, _, fields, -, -, haccepts⟩
    · exact regular_of_wellFormed (.object hn hentries) hwell
    · refine .object hn fun e he => ?_
      obtain ⟨f, -, -, hentry⟩ := haccepts e he
      exact ih e he hentry

end Literal

end QueryShapes
