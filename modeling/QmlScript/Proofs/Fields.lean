import Mathlib.Data.List.Nodup
import QmlScript.Json.Value

/-!
# Laws of JSON objects

A field that is set has its value and leaves all other fields as they were. Values are taken apart by
induction on what is inside of them.
-/

namespace QmlScript.Json

open List

variable {key other : String} {value v : Json} {fields : List (String × Json)}

def IsScalar : Json → Prop
  | .arr _ => False
  | .obj _ => False
  | _ => True

theorem sizeOf_field_lt {field : String × Json} (h : field ∈ fields) : sizeOf field.2 < sizeOf fields := by
  have hmem := sizeOf_lt_of_mem h
  have hpair : sizeOf field = 1 + sizeOf field.1 + sizeOf field.2 := by
    cases field
    rfl
  omega

/-- What holds of scalars, and of lists and objects if it holds inside, holds of every value. -/
@[elab_as_elim]
theorem induct {motive : Json → Prop} (scalar : ∀ v : Json, v.IsScalar → motive v)
    (arr : ∀ items : List Json, (∀ item ∈ items, motive item) → motive (.arr items))
    (obj : ∀ fields : List (String × Json), (∀ field ∈ fields, motive field.2) → motive (.obj fields))
    (v : Json) : motive v :=
  match v with
  | .arr items => arr items fun item _ => induct scalar arr obj item
  | .obj fields => obj fields fun field _ => induct scalar arr obj field.2
  | .null => scalar _ trivial
  | .bool _ => scalar _ trivial
  | .int _ => scalar _ trivial
  | .double _ => scalar _ trivial
  | .str _ => scalar _ trivial
termination_by sizeOf v
decreasing_by
  · have hmem : sizeOf item < sizeOf items := sizeOf_lt_of_mem ‹_›
    simp only [Json.arr.sizeOf_spec]
    omega
  · have hmem : sizeOf field.2 < sizeOf fields := sizeOf_field_lt ‹_›
    simp only [Json.obj.sizeOf_spec]
    omega

@[elab_as_elim]
theorem inductObj {motive : Json → Prop} (value : ∀ v : Json, (∀ fields, v ≠ .obj fields) → motive v)
    (obj : ∀ fields : List (String × Json), (∀ field ∈ fields, motive field.2) → motive (.obj fields))
    (v : Json) : motive v := by
  induction v using induct with
  | scalar v h => exact value v fun fields hobj => by rw [hobj] at h; exact h
  | arr items => exact value _ (by simp)
  | obj fields ih => exact obj fields ih

theorem field?_setField :
    field? other (setField key value fields) = if key = other then some value else field? other fields := by
  induction fields with
  | nil => rfl
  | cons field fields ih =>
    obtain ⟨k, v⟩ := field
    rw [setField]
    split
    · rename_i hk
      subst hk
      by_cases h : k = other <;> simp [field?, h]
    · rename_i hk
      rw [field?, field?, ih]
      by_cases h : k = other
      · subst h
        simp [Ne.symm hk]
      · simp [h]

theorem mem_of_field? (h : field? key fields = some v) : (key, v) ∈ fields := by
  induction fields with
  | nil => cases h
  | cons field fields ih =>
    obtain ⟨k, w⟩ := field
    rw [field?] at h
    split at h
    · rename_i hk
      cases h
      exact hk ▸ mem_cons_self
    · exact mem_cons_of_mem _ (ih h)

theorem mem_setField {field : String × Json} (h : field ∈ setField key value fields) :
    field = (key, value) ∨ field ∈ fields := by
  induction fields with
  | nil => exact .inl (mem_singleton.mp h)
  | cons first fields ih =>
    obtain ⟨k, v⟩ := first
    rw [setField] at h
    split at h
    · rename_i hk
      rcases mem_cons.mp h with rfl | hmem
      · exact .inl (by rw [hk])
      · exact .inr (mem_cons_of_mem _ hmem)
    · rcases mem_cons.mp h with rfl | hmem
      · exact .inr mem_cons_self
      · exact (ih hmem).imp_right (mem_cons_of_mem _)

theorem setField_setField (inner inner' : Json) :
    setField key inner' (setField key inner fields) = setField key inner' fields := by
  induction fields with
  | nil => simp [setField]
  | cons field fields ih =>
    obtain ⟨name, v⟩ := field
    by_cases h : name = key <;> simp [setField, h, ih]

theorem setField_of_not_mem (h : key ∉ fields.map Prod.fst) : setField key v fields = fields ++ [(key, v)] := by
  induction fields with
  | nil => rfl
  | cons field fields ih =>
    obtain ⟨k, w⟩ := field
    simp only [map_cons, mem_cons, not_or] at h
    rw [setField, if_neg (Ne.symm h.1), ih h.2, cons_append]

theorem nodup_setField (h : (fields.map Prod.fst).Nodup) : ((setField key value fields).map Prod.fst).Nodup := by
  induction fields with
  | nil => exact nodup_singleton key
  | cons field fields ih =>
    obtain ⟨k, v⟩ := field
    rw [map_cons, nodup_cons] at h
    rw [setField]
    split
    · exact nodup_cons.mpr h
    · rename_i hk
      refine nodup_cons.mpr ⟨fun hmem => ?_, ih h.2⟩
      obtain ⟨field, hfield, heq⟩ := mem_map.mp hmem
      rcases mem_setField hfield with rfl | hfield
      · exact hk heq.symm
      · exact h.1 (mem_map.mpr ⟨field, hfield, heq⟩)

end QmlScript.Json
