import Mathlib
import RecurrenceCompiler.Json.Basic

/-!
# Fields

A list of fields is a map from keys to values: after a field is set it has the value (`getField?_setField`),
the others are what they were, and setting the value that a field has changes nothing
(`setField_eq_self`). A key is in the list exactly if it has a value (`getField?_isSome`).
-/

namespace RecurrenceCompiler.Json

variable {α : Type} {fields : List (String × α)} {key key' : String} {value : α}

theorem getField?_cons (f : String × α) :
    getField? (f :: fields) key = if f.1 = key then some f.2 else getField? fields key := by
  simp only [getField?, List.find?_cons]
  split <;> simp_all

/-- The field of a key in two lists that belong together. -/
theorem getField?_zip_map {β : Type} (f : α → β) (keys : List String) (values : List α) (key : String) :
    getField? (keys.zip (values.map f)) key = (getField? (keys.zip values) key).map f := by
  rw [List.zip_map_right, getField?, List.find?_map, Option.map_map, getField?, Option.map_map]
  rfl

theorem mem_of_getField?_zip {keys : List String} {values : List α} {key : String} {value : α}
    (h : getField? (keys.zip values) key = some value) : key ∈ keys ∧ value ∈ values := by
  obtain ⟨p, hp, rfl⟩ := Option.map_eq_some_iff.1 h
  have hkey : p.1 = key := by simpa using List.find?_some hp
  exact hkey ▸ List.of_mem_zip (List.mem_of_find?_eq_some hp)

/-- **After a field is set it has the value**, and the others are what they were. -/
theorem getField?_setField :
    getField? (setField fields key value) key' =
      if key = key' then some value else getField? fields key' := by
  induction fields with
  | nil => rw [setField, getField?_cons]
  | cons f fields ih =>
    obtain ⟨k, v⟩ := f
    rw [setField]
    split
    · next hk =>
      obtain rfl := beq_iff_eq.1 hk
      rw [getField?_cons, getField?_cons]
      split <;> rfl
    · next hk =>
      have hk : k ≠ key := by simpa using hk
      rw [getField?_cons, getField?_cons, ih]
      split
      · next hkey =>
        rw [if_neg (fun h => hk (hkey.trans h.symm))]
      · rfl

/-- A key has a value exactly if it is in the list. -/
theorem getField?_isSome : (getField? fields key).isSome ↔ key ∈ fields.map (·.1) := by
  simp [getField?, List.find?_isSome]

/-- Under distinct keys every field is found. -/
theorem getField?_of_mem {f : String × α} (h : (fields.map (·.1)).Nodup) (hf : f ∈ fields) :
    getField? fields f.1 = some f.2 := by
  induction fields with
  | nil => cases hf
  | cons g fields ih =>
    rw [List.map_cons, List.nodup_cons] at h
    rw [getField?_cons]
    rcases List.mem_cons.1 hf with rfl | hf
    · rw [if_pos rfl]
    · have hne : g.1 ≠ f.1 := fun heq => h.1 (heq ▸ List.mem_map_of_mem hf)
      rw [if_neg hne, ih h.2 hf]

/-- Setting the value that a field has changes nothing. -/
theorem setField_eq_self (h : getField? fields key = some value) :
    setField fields key value = fields := by
  induction fields with
  | nil => cases h
  | cons f fields ih =>
    obtain ⟨k, v⟩ := f
    rw [getField?_cons] at h
    rw [setField]
    split
    · next hk =>
      rw [if_pos (beq_iff_eq.1 hk)] at h
      cases h
      rfl
    · next hk =>
      rw [if_neg (by simpa using hk)] at h
      rw [ih h]

/-- A key that is new is added at the end. -/
theorem setField_of_new (h : key ∉ fields.map (·.1)) :
    setField fields key value = fields ++ [(key, value)] := by
  induction fields with
  | nil => rfl
  | cons f fields ih =>
    rw [List.map_cons, List.mem_cons, not_or] at h
    rw [setField, if_neg (by simpa using Ne.symm h.1), ih h.2]
    rfl

/-- Fields that are written under distinct keys stand in the order in which they were written. -/
theorem foldl_setField {files fields : List (String × α)}
    (h : ((fields ++ files).map (·.1)).Nodup) :
    files.foldl (fun fs f => setField fs f.1 f.2) fields = fields ++ files := by
  induction files generalizing fields with
  | nil => simp
  | cons f files ih =>
    have hf : f.1 ∉ fields.map (·.1) := by
      rw [List.map_append, List.map_cons, List.nodup_append] at h
      exact fun hmem => h.2.2 _ hmem _ List.mem_cons_self rfl
    rw [List.foldl_cons, setField_of_new hf, ih (by simpa using h), List.append_assoc]
    rfl

end RecurrenceCompiler.Json
