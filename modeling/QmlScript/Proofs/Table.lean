import Mathlib.Data.List.Sort
import Mathlib.Data.String.Basic
import QmlScript.Table

/-!
# Laws of tables and ordered sets

A table is told by its keys and by the value of each of them, and an ordered set by its members: two
ordered sets with the same members are the same list, whatever the order in which they were built.
-/

namespace QmlScript

open List

namespace Table

variable {κ α : Type} [DecidableEq κ] {t : Table κ α} {key : κ}

theorem get?_insert (t : Table κ α) (key other : κ) (value : α) :
    (t.insert key value).get? other = if key = other then some value else t.get? other := by
  by_cases h : key = other
  · subst h; simp
  · rw [get?_insert_of_ne t value h, if_neg h]

theorem mem_keys_iff (t : Table κ α) (key : κ) : key ∈ t.keys ↔ ∃ value, t.get? key = some value := by
  obtain ⟨entries⟩ := t
  simp only [keys, get?]
  induction entries with
  | nil => simp [lookup]
  | cons entry entries ih =>
    obtain ⟨k, v⟩ := entry
    by_cases hk : k = key
    · subst hk; simp [lookup]
    · have hk' : ¬ key = k := fun h => hk h.symm
      simp only [map_cons, mem_cons, hk', false_or, lookup, if_neg hk]
      exact ih

theorem contains_iff (t : Table κ α) (key : κ) : t.contains key = true ↔ key ∈ t.keys := by
  rw [mem_keys_iff, contains, Option.isSome_iff_exists]

theorem get?_eq_none_iff (t : Table κ α) (key : κ) : t.get? key = none ↔ key ∉ t.keys := by
  rw [mem_keys_iff]
  cases t.get? key <;> simp

theorem map_fst_setEntry (key : κ) (value : α) (entries : List (κ × α)) :
    (setEntry key value entries).map (·.1) =
      if key ∈ entries.map (·.1) then entries.map (·.1) else entries.map (·.1) ++ [key] := by
  induction entries with
  | nil => simp [setEntry]
  | cons entry entries ih =>
    obtain ⟨k, v⟩ := entry
    by_cases hk : k = key
    · subst hk; simp [setEntry]
    · have hk' : ¬ key = k := fun h => hk h.symm
      simp only [setEntry, if_neg hk, map_cons, ih, mem_cons, hk', false_or]
      split <;> simp

theorem keys_insert (t : Table κ α) (key : κ) (value : α) :
    (t.insert key value).keys = if key ∈ t.keys then t.keys else t.keys ++ [key] := map_fst_setEntry key value t.entries

theorem mem_keys_insert (t : Table κ α) (key other : κ) (value : α) :
    other ∈ (t.insert key value).keys ↔ other = key ∨ other ∈ t.keys := by
  rw [keys_insert]
  split
  · rename_i h
    constructor
    · exact Or.inr
    · rintro (rfl | h')
      · exact h
      · exact h'
  · simp [or_comm]

theorem nodup_keys_insert (h : t.keys.Nodup) (key : κ) (value : α) : (t.insert key value).keys.Nodup := by
  rw [keys_insert]
  split
  · exact h
  · rename_i hk
    rw [nodup_append]
    refine ⟨h, nodup_singleton key, fun a ha b hb => ?_⟩
    rw [mem_singleton] at hb
    rintro rfl
    exact hk (hb ▸ ha)

theorem keys_insert_of_mem (h : key ∈ t.keys) (value : α) : (t.insert key value).keys = t.keys := by
  rw [keys_insert, if_pos h]

omit [DecidableEq κ] in
theorem length_keys (t : Table κ α) : t.keys.length = t.size := by simp [keys, size]

theorem mem_entries_of_get? {value : α} (h : t.get? key = some value) : (key, value) ∈ t.entries := by
  obtain ⟨entries⟩ := t
  simp only [get?] at h
  induction entries with
  | nil => simp [lookup] at h
  | cons entry entries ih =>
    obtain ⟨k, v⟩ := entry
    by_cases hk : k = key
    · subst hk
      simp only [lookup, if_pos, Option.some.injEq] at h
      simp [h]
    · simp only [lookup, if_neg hk] at h
      exact mem_cons_of_mem _ (ih h)

theorem get?_of_mem_entries (hn : t.keys.Nodup) {value : α}
    (h : (key, value) ∈ t.entries) : t.get? key = some value := by
  obtain ⟨entries⟩ := t
  simp only [get?, keys] at hn h ⊢
  induction entries with
  | nil => simp at h
  | cons entry entries ih =>
    obtain ⟨k, v⟩ := entry
    simp only [map_cons, nodup_cons] at hn
    rcases mem_cons.mp h with h | h
    · obtain ⟨rfl, rfl⟩ := Prod.mk.inj h
      simp [lookup]
    · have hk : k ≠ key := fun hk => hn.1 (hk ▸ mem_map.mpr ⟨_, h, rfl⟩)
      simp only [lookup, if_neg hk]
      exact ih hn.2 h

/-- A value that is not set again stays. -/
theorem get?_foldl_insert (entries : List (κ × α)) (t : Table κ α) (h : key ∉ entries.map (·.1)) :
    (entries.foldl (fun t (k, v) => t.insert k v) t).get? key = t.get? key := by
  induction entries generalizing t with
  | nil => rfl
  | cons entry entries ih =>
    rw [map_cons, mem_cons, not_or] at h
    rw [foldl_cons, ih _ h.2, get?_insert, if_neg fun heq => h.1 heq.symm]

theorem get?_ofList {entries : List (κ × α)} (hn : (entries.map (·.1)).Nodup) {value : α}
    (h : (key, value) ∈ entries) : (ofList entries).get? key = some value := by
  obtain ⟨front, back, rfl⟩ := append_of_mem h
  rw [map_append, map_cons, nodup_append, nodup_cons] at hn
  rw [ofList, foldl_append, foldl_cons, get?_foldl_insert back _ hn.2.1.1, get?_insert, if_pos rfl]

/-- Tables with the same value for each key, in another order. -/
structure Reordered (t u : Table κ α) : Prop where
  nodup : t.keys.Nodup
  keys : t.keys.Perm u.keys
  get? : ∀ key, t.get? key = u.get? key

namespace Reordered

variable {t u : Table κ α}

theorem symm (h : Reordered t u) : Reordered u t :=
  ⟨h.keys.nodup_iff.mp h.nodup, h.keys.symm, fun key => (h.get? key).symm⟩

theorem entries (h : Reordered t u) : t.entries.Perm u.entries := by
  refine (perm_ext_iff_of_nodup (.of_map _ h.nodup) (.of_map _ h.symm.nodup)).mpr ?_
  rintro ⟨key, value⟩
  constructor
  · intro he
    exact mem_entries_of_get? (h.get? key ▸ get?_of_mem_entries h.nodup he)
  · intro he
    exact mem_entries_of_get? ((h.get? key).symm ▸ get?_of_mem_entries h.symm.nodup he)

theorem size (h : Reordered t u) : t.size = u.size := h.entries.length_eq

theorem insert (h : Reordered t u) (key : κ) (value : α) : Reordered (t.insert key value) (u.insert key value) := by
  refine ⟨nodup_keys_insert h.nodup key value, ?_, fun other => ?_⟩
  · refine (perm_ext_iff_of_nodup (nodup_keys_insert h.nodup key value)
      (nodup_keys_insert h.symm.nodup key value)).mpr fun other => ?_
    rw [mem_keys_insert, mem_keys_insert, h.keys.mem_iff]
  · rw [get?_insert, get?_insert, h.get?]

end Reordered

theorem insert_of_not_mem (h : key ∉ t.keys) (value : α) : t.insert key value = ⟨t.entries ++ [(key, value)]⟩ := by
  obtain ⟨entries⟩ := t
  simp only [insert, keys, mk.injEq] at h ⊢
  induction entries with
  | nil => rfl
  | cons entry entries ih =>
    obtain ⟨k, v⟩ := entry
    rw [map_cons, mem_cons, not_or] at h
    rw [setEntry, if_neg (Ne.symm h.1), ih h.2, cons_append]

omit [DecidableEq κ] in
@[simp] theorem keys_map {β : Type} (t : Table κ α) (f : α → β) : (t.map f).keys = t.keys := by
  simp [map, keys, Function.comp_def]

theorem get?_map {β : Type} (t : Table κ α) (f : α → β) (key : κ) : (t.map f).get? key = (t.get? key).map f := by
  obtain ⟨entries⟩ := t
  simp only [map, get?]
  induction entries with
  | nil => rfl
  | cons entry entries ih =>
    rw [map_cons, lookup, lookup]
    split
    · rfl
    · exact ih

theorem keys_erase (t : Table κ α) (key : κ) : (t.erase key).keys = t.keys.filter (· ≠ key) := by
  simp [erase, keys, filter_map, Function.comp_def]

theorem get?_erase_of_ne (t : Table κ α) {key other : κ} (h : other ≠ key) :
    (t.erase key).get? other = t.get? other := by
  obtain ⟨entries⟩ := t
  simp only [erase, get?]
  induction entries with
  | nil => rfl
  | cons entry entries ih =>
    obtain ⟨k, v⟩ := entry
    by_cases hk : k = key
    · subst hk
      rw [filter_cons_of_neg (by simp), ih, lookup, if_neg (Ne.symm h)]
    · rw [filter_cons_of_pos (by simpa using hk), lookup, lookup, ih]

theorem mem_values_iff (h : t.keys.Nodup) {v : α} : v ∈ t.values ↔ ∃ key, t.get? key = some v := by
  constructor
  · intro hv
    obtain ⟨⟨key, _⟩, hentry, rfl⟩ := mem_map.mp hv
    exact ⟨key, get?_of_mem_entries h hentry⟩
  · rintro ⟨key, hkey⟩
    exact mem_map.mpr ⟨_, mem_entries_of_get? hkey, rfl⟩

theorem map_values_eq_keys (hn : t.keys.Nodup) {name : α → κ}
    (h : ∀ key v, t.get? key = some v → name v = key) : t.values.map name = t.keys := by
  rw [values, keys, map_map]
  refine map_congr_left fun entry hentry => ?_
  exact h _ _ (get?_of_mem_entries hn hentry)

end Table

theorem sortBy_perm {α : Type} (lt : α → α → Bool) (as : List α) : (sortBy lt as).Perm as := mergeSort_perm _ _

theorem textLt_iff (a b : String) : textLt a b = true ↔ a < b := by simp [textLt]

section

variable {α : Type} [DecidableEq α] {lt : α → α → Bool}

theorem mem_insertOrdered {a b : α} {set : List α} : b ∈ insertOrdered lt a set ↔ b = a ∨ b ∈ set := by
  induction set with
  | nil => simp [insertOrdered]
  | cons c cs ih =>
    simp only [insertOrdered]
    split
    · rename_i h
      subst h
      simp
    · split
      · simp
      · rw [mem_cons, ih, mem_cons]
        exact or_left_comm

theorem mem_foldl_insertOrdered {as set : List α} {b : α} :
    b ∈ as.foldl (fun set a => insertOrdered lt a set) set ↔ b ∈ as ∨ b ∈ set := by
  induction as generalizing set with
  | nil => simp
  | cons a as ih =>
    rw [foldl_cons, ih, mem_insertOrdered, mem_cons]
    exact or_left_comm.trans or_assoc.symm

theorem mem_orderedSet {as : List α} {b : α} : b ∈ orderedSet lt as ↔ b ∈ as := mem_foldl_insertOrdered.trans (by simp)

theorem orderedSet_eq_nil_iff {as : List α} : orderedSet lt as = [] ↔ as = [] := by
  simp only [eq_nil_iff_forall_not_mem, mem_orderedSet]

end

namespace NameSet

def Ordered (set : NameSet) : Prop := set.Pairwise (· < ·)

@[simp] theorem mem_add (set : NameSet) (name other : String) :
    other ∈ set.add name ↔ other = name ∨ other ∈ set := mem_insertOrdered

theorem Ordered.add {set : NameSet} (h : Ordered set) (name : String) : Ordered (set.add name) := by
  simp only [NameSet.add]
  induction set with
  | nil => simp [insertOrdered, Ordered]
  | cons b bs ih =>
    obtain ⟨hb, hbs⟩ := pairwise_cons.mp h
    simp only [insertOrdered]
    split
    · exact h
    · rename_i hne
      split
      · rename_i hlt
        have hab : name < b := (textLt_iff name b).mp hlt
        refine pairwise_cons.mpr ⟨fun x hx => ?_, h⟩
        rcases mem_cons.mp hx with rfl | hx
        · exact hab
        · exact hab.trans (hb x hx)
      · rename_i hlt
        have hba : b < name := by
          rcases lt_trichotomy name b with hl | rfl | hl
          · exact absurd ((textLt_iff name b).mpr hl) hlt
          · exact absurd rfl hne
          · exact hl
        refine pairwise_cons.mpr ⟨fun x hx => ?_, ih hbs⟩
        rcases (mem_add bs name x).mp hx with rfl | hx
        · exact hba
        · exact hb x hx

theorem Ordered.nodup {set : NameSet} (h : Ordered set) : set.Nodup := List.Pairwise.imp (fun hab => ne_of_lt hab) h

theorem Ordered.ext {s t : NameSet} (hs : Ordered s) (ht : Ordered t) (h : ∀ a, a ∈ s ↔ a ∈ t) : s = t :=
  ((perm_ext_iff_of_nodup hs.nodup ht.nodup).mpr h).eq_of_pairwise
    (fun _ _ _ _ hab hba => absurd hba (lt_asymm hab)) hs ht

theorem Ordered.foldl_add {set : NameSet} (h : Ordered set) (names : List String) :
    Ordered (names.foldl NameSet.add set) := by
  induction names generalizing set with
  | nil => exact h
  | cons name names ih => exact ih (h.add name)

theorem mem_foldl_add (set : NameSet) (names : List String) (other : String) :
    other ∈ names.foldl NameSet.add set ↔ other ∈ names ∨ other ∈ set := mem_foldl_insertOrdered

end NameSet
end QmlScript
