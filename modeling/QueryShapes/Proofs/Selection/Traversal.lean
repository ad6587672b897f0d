/-
  Traversals of selection trees: all fields, spreads and markers of a list at
  every depth, and maps over the values of all arguments.

  `listInduction` is the induction over a selection list that every proof on
  these functions uses: one case for each kind of selection at the head.
-/
import QueryShapes.Selection.Basic

namespace QueryShapes

namespace Selection

/-- Induction over a selection list, with what is selected below its head and the rest of it. -/
@[elab_as_elim]
theorem listInduction {motive : List Selection → Prop} (nil : motive [])
    (field : ∀ f subs rest, motive subs → motive rest → motive (.field f subs :: rest))
    (spread : ∀ name condition rest, motive rest → motive (.spread name condition :: rest))
    (inline : ∀ condition subs rest, motive subs → motive rest →
      motive (.inline condition subs :: rest))
    (marker : ∀ name condition subs rest, motive subs → motive rest →
      motive (.marker name condition subs :: rest)) : ∀ selections, motive selections
  | [] => nil
  | .field f subs :: rest =>
    field f subs rest (listInduction nil field spread inline marker subs)
      (listInduction nil field spread inline marker rest)
  | .spread name condition :: rest =>
    spread name condition rest (listInduction nil field spread inline marker rest)
  | .inline condition subs :: rest =>
    inline condition subs rest (listInduction nil field spread inline marker subs)
      (listInduction nil field spread inline marker rest)
  | .marker name condition subs :: rest =>
    marker name condition subs rest (listInduction nil field spread inline marker subs)
      (listInduction nil field spread inline marker rest)

/-! ## All fields, spreads and markers -/

/-- The fields of a list at every depth, in reading order. -/
def allFields : List Selection → List Field
  | [] => []
  | .field f subs :: rest => f :: (allFields subs ++ allFields rest)
  | .spread _ _ :: rest => allFields rest
  | .inline _ subs :: rest => allFields subs ++ allFields rest
  | .marker _ _ subs :: rest => allFields subs ++ allFields rest

/-- The arguments of all fields of a list, in reading order. -/
def allArguments (selections : List Selection) : List FieldArgument :=
  (allFields selections).flatMap (·.arguments)

/-- The spreads of a list at every depth: fragment names with type conditions. -/
def allSpreads : List Selection → List (String × String)
  | [] => []
  | .field _ subs :: rest => allSpreads subs ++ allSpreads rest
  | .spread name condition :: rest => (name, condition) :: allSpreads rest
  | .inline _ subs :: rest => allSpreads subs ++ allSpreads rest
  | .marker _ _ subs :: rest => allSpreads subs ++ allSpreads rest

/-- A reusable fragment of a tree. -/
structure Marker where
  name : Option String
  typeCondition : String
  selections : List Selection

/-- The markers of a list at every depth, those inside other markers included. -/
def allMarkers : List Selection → List Marker
  | [] => []
  | .field _ subs :: rest => allMarkers subs ++ allMarkers rest
  | .spread _ _ :: rest => allMarkers rest
  | .inline _ subs :: rest => allMarkers subs ++ allMarkers rest
  | .marker name condition subs :: rest =>
    ⟨name, condition, subs⟩ :: (allMarkers subs ++ allMarkers rest)

theorem allFields_append (as bs : List Selection) :
    allFields (as ++ bs) = allFields as ++ allFields bs := by
  induction as with
  | nil => simp [allFields]
  | cons a as ih => cases a <;> simp [allFields, ih]

@[simp] theorem allArguments_field (f : Field) (subs rest : List Selection) :
    allArguments (.field f subs :: rest) =
      f.arguments ++ (allArguments subs ++ allArguments rest) := by
  simp [allArguments, allFields]

@[simp] theorem allArguments_spread (name condition : String) (rest : List Selection) :
    allArguments (.spread name condition :: rest) = allArguments rest := by
  simp [allArguments, allFields]

@[simp] theorem allArguments_inline (condition : String) (subs rest : List Selection) :
    allArguments (.inline condition subs :: rest) = allArguments subs ++ allArguments rest := by
  simp [allArguments, allFields]

@[simp] theorem allArguments_marker (name : Option String) (condition : String)
    (subs rest : List Selection) :
    allArguments (.marker name condition subs :: rest) =
      allArguments subs ++ allArguments rest := by
  simp [allArguments, allFields]

theorem allSpreads_append (as bs : List Selection) :
    allSpreads (as ++ bs) = allSpreads as ++ allSpreads bs := by
  induction as with
  | nil => simp [allSpreads]
  | cons a as ih => cases a <;> simp [allSpreads, ih]

/-- What stands below a member of a list. -/
def children : Selection → List Selection
  | .field _ subs | .inline _ subs | .marker _ _ subs => subs
  | .spread _ _ => []

/-- Everything in a part of a tree is in the tree. -/
structure Within (part whole : List Selection) : Prop where
  fields : ∀ f ∈ allFields part, f ∈ allFields whole
  spreads : ∀ x ∈ allSpreads part, x ∈ allSpreads whole
  markers : ∀ m ∈ allMarkers part, m ∈ allMarkers whole

theorem Within.refl (selections : List Selection) : Within selections selections :=
  ⟨fun _ h => h, fun _ h => h, fun _ h => h⟩

theorem Within.trans {as bs cs : List Selection} (h₁ : Within as bs) (h₂ : Within bs cs) :
    Within as cs :=
  ⟨fun f hf => h₂.fields f (h₁.fields f hf), fun x hx => h₂.spreads x (h₁.spreads x hx),
    fun m hm => h₂.markers m (h₁.markers m hm)⟩

theorem within_children_cons (s : Selection) (rest : List Selection) :
    Within (children s) (s :: rest) := by
  cases s <;> constructor <;>
    simp +contextual [children, allFields, allSpreads, allMarkers]

theorem within_tail (s : Selection) (rest : List Selection) : Within rest (s :: rest) := by
  cases s <;> constructor <;> simp +contextual [allFields, allSpreads, allMarkers]

theorem within_children {s : Selection} {selections : List Selection} (h : s ∈ selections) :
    Within (children s) selections := by
  induction selections with
  | nil => cases h
  | cons t rest ih =>
    rcases List.mem_cons.mp h with rfl | h
    · exact within_children_cons s rest
    · exact (ih h).trans (within_tail t rest)

theorem within_of_mem_allMarkers {m : Marker} {selections : List Selection}
    (h : m ∈ allMarkers selections) : Within m.selections selections := by
  induction selections using listInduction with
  | nil => simp [allMarkers] at h
  | field f subs rest ihs ihr =>
    simp only [allMarkers, List.mem_append] at h
    rcases h with h | h
    · exact (ihs h).trans (within_children_cons (.field f subs) rest)
    · exact (ihr h).trans (within_tail _ rest)
  | spread name condition rest ihr =>
    simp only [allMarkers] at h
    exact (ihr h).trans (within_tail _ rest)
  | inline condition subs rest ihs ihr =>
    simp only [allMarkers, List.mem_append] at h
    rcases h with h | h
    · exact (ihs h).trans (within_children_cons (.inline condition subs) rest)
    · exact (ihr h).trans (within_tail _ rest)
  | marker name condition subs rest ihs ihr =>
    simp only [allMarkers, List.mem_cons, List.mem_append] at h
    rcases h with rfl | h | h
    · exact within_children_cons (.marker name condition subs) rest
    · exact (ihs h).trans (within_children_cons (.marker name condition subs) rest)
    · exact (ihr h).trans (within_tail _ rest)

/-! ## Fragments with a body -/

/-- Whether the inline fragments and markers of a list select something, at every depth. -/
def HasBodies : List Selection → Prop
  | [] => True
  | .field _ subs :: rest => HasBodies subs ∧ HasBodies rest
  | .spread _ _ :: rest => HasBodies rest
  | .inline _ subs :: rest => subs ≠ [] ∧ HasBodies subs ∧ HasBodies rest
  | .marker _ _ subs :: rest => subs ≠ [] ∧ HasBodies subs ∧ HasBodies rest

theorem hasBodies_append {as bs : List Selection} :
    HasBodies (as ++ bs) ↔ HasBodies as ∧ HasBodies bs := by
  induction as with
  | nil => simp [HasBodies]
  | cons a as ih => cases a <;> simp [HasBodies, ih, and_assoc]

theorem HasBodies.of_mem_allMarkers {selections : List Selection} (h : HasBodies selections)
    {m : Marker} (hm : m ∈ allMarkers selections) : m.selections ≠ [] ∧ HasBodies m.selections := by
  induction selections using listInduction with
  | nil => simp [allMarkers] at hm
  | field f subs rest ihs ihr =>
    rw [HasBodies] at h
    rw [allMarkers, List.mem_append] at hm
    exact hm.elim (ihs h.1) (ihr h.2)
  | spread name condition rest ihr =>
    rw [HasBodies] at h
    rw [allMarkers] at hm
    exact ihr h hm
  | inline condition subs rest ihs ihr =>
    rw [HasBodies] at h
    rw [allMarkers, List.mem_append] at hm
    exact hm.elim (ihs h.2.1) (ihr h.2.2)
  | marker name condition subs rest ihs ihr =>
    rw [HasBodies] at h
    rw [allMarkers, List.mem_cons, List.mem_append] at hm
    rcases hm with rfl | hm
    · exact ⟨h.1, h.2.1⟩
    · exact hm.elim (ihs h.2.1) (ihr h.2.2)

end Selection

/-! ## Maps over argument values -/

/-- The argument with its value changed. -/
def FieldArgument.mapValue (g : ArgumentValue → ArgumentValue) (a : FieldArgument) :
    FieldArgument := { a with value := g a.value }

/-- The field with the values of its arguments changed. -/
def Field.mapValues (g : ArgumentValue → ArgumentValue) (f : Field) : Field :=
  { f with arguments := f.arguments.map (FieldArgument.mapValue g) }

@[simp] theorem Field.mapValues_responseKey (g : ArgumentValue → ArgumentValue) (f : Field) :
    (f.mapValues g).responseKey = f.responseKey := rfl

@[simp] theorem Field.mapValues_type (g : ArgumentValue → ArgumentValue) (f : Field) :
    (f.mapValues g).type = f.type := rfl

namespace Selection

/-- The tree with the values of all arguments changed. -/
def mapValues (g : ArgumentValue → ArgumentValue) : List Selection → List Selection
  | [] => []
  | .field f subs :: rest => .field (f.mapValues g) (mapValues g subs) :: mapValues g rest
  | .spread name condition :: rest => .spread name condition :: mapValues g rest
  | .inline condition subs :: rest => .inline condition (mapValues g subs) :: mapValues g rest
  | .marker name condition subs :: rest =>
    .marker name condition (mapValues g subs) :: mapValues g rest

theorem mapValues_append (g : ArgumentValue → ArgumentValue) (as bs : List Selection) :
    mapValues g (as ++ bs) = mapValues g as ++ mapValues g bs := by
  induction as with
  | nil => simp [mapValues]
  | cons a as ih => cases a <;> simp [mapValues, ih]

theorem allFields_mapValues (g : ArgumentValue → ArgumentValue) (selections : List Selection) :
    allFields (mapValues g selections) = (allFields selections).map (Field.mapValues g) := by
  induction selections using listInduction with
  | nil => simp [mapValues, allFields]
  | field f subs rest ihs ihr => simp [mapValues, allFields, ihs, ihr]
  | spread name condition rest ihr => simp [mapValues, allFields, ihr]
  | inline condition subs rest ihs ihr => simp [mapValues, allFields, ihs, ihr]
  | marker name condition subs rest ihs ihr => simp [mapValues, allFields, ihs, ihr]

theorem allMarkers_mapValues_eq_nil {g : ArgumentValue → ArgumentValue}
    {selections : List Selection} :
    allMarkers (mapValues g selections) = [] ↔ allMarkers selections = [] := by
  induction selections using listInduction with
  | nil => simp [mapValues, allMarkers]
  | field f subs rest ihs ihr => simp [mapValues, allMarkers, ihs, ihr]
  | spread name condition rest ihr => simp [mapValues, allMarkers, ihr]
  | inline condition subs rest ihs ihr => simp [mapValues, allMarkers, ihs, ihr]
  | marker name condition subs rest _ _ => simp [mapValues, allMarkers]

theorem mapValues_eq_nil {g : ArgumentValue → ArgumentValue} {selections : List Selection} :
    mapValues g selections = [] ↔ selections = [] := by
  cases selections with
  | nil => simp [mapValues]
  | cons s rest => cases s <;> simp [mapValues]

theorem hasBodies_mapValues {g : ArgumentValue → ArgumentValue} {selections : List Selection} :
    HasBodies (mapValues g selections) ↔ HasBodies selections := by
  induction selections using listInduction with
  | nil => simp [mapValues, HasBodies]
  | field f subs rest ihs ihr => simp [mapValues, HasBodies, ihs, ihr]
  | spread name condition rest ihr => simp [mapValues, HasBodies, ihr]
  | inline condition subs rest ihs ihr => simp [mapValues, HasBodies, mapValues_eq_nil, ihs, ihr]
  | marker name condition subs rest ihs ihr =>
    simp [mapValues, HasBodies, mapValues_eq_nil, ihs, ihr]

theorem allSpreads_mapValues (g : ArgumentValue → ArgumentValue) (selections : List Selection) :
    allSpreads (mapValues g selections) = allSpreads selections := by
  induction selections using listInduction with
  | nil => simp [mapValues, allSpreads]
  | field f subs rest ihs ihr => simp [mapValues, allSpreads, ihs, ihr]
  | spread name condition rest ihr => simp [mapValues, allSpreads, ihr]
  | inline condition subs rest ihs ihr => simp [mapValues, allSpreads, ihs, ihr]
  | marker name condition subs rest ihs ihr => simp [mapValues, allSpreads, ihs, ihr]

end Selection

end QueryShapes
