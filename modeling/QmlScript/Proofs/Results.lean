import Mathlib.Data.List.Forall2
import QmlScript.Error

/-!
# Laws of results

Work that may fail gives a result or an error; what gives a result in several steps gives one in each of
them.
-/

namespace QmlScript

open List

variable {ε ε' α β : Type}
variable {result : Except ε α} {f : α → Except ε β} {a : α} {as : List α} {bs : List β}

theorem of_bind_eq_ok {b : β} (h : (result >>= f) = .ok b) : ∃ a, result = .ok a ∧ f a = .ok b := by
  cases result with
  | error e => cases h
  | ok a => exact ⟨a, rfl, h⟩

theorem mapError_eq_ok_iff {wrap : ε → ε'} : result.mapError wrap = .ok a ↔ result = .ok a := by
  cases result with
  | error e => exact ⟨nofun, nofun⟩
  | ok b => exact ⟨fun h => congrArg _ (Except.ok.inj h), fun h => congrArg _ (Except.ok.inj h)⟩

theorem eq_ok_of_toOption (h : result.toOption = some a) : result = .ok a := by
  cases result with
  | error e => cases h
  | ok b => exact congrArg _ (Option.some.inj h)

theorem mapM_eq_ok_iff : as.mapM f = .ok bs ↔ List.Forall₂ (fun a b => f a = .ok b) as bs := by
  induction as generalizing bs with
  | nil =>
    rw [mapM_nil, List.forall₂_nil_left_iff]
    exact ⟨fun h => (Except.ok.inj h).symm, fun h => congrArg _ h.symm⟩
  | cons a as ih =>
    rw [mapM_cons, List.forall₂_cons_left_iff]
    constructor
    · intro h
      obtain ⟨b, hb, h⟩ := of_bind_eq_ok h
      obtain ⟨bs', hbs, h⟩ := of_bind_eq_ok h
      exact ⟨b, bs', hb, ih.mp hbs, (Except.ok.inj h).symm⟩
    · rintro ⟨b, bs', hb, hbs, rfl⟩
      rw [hb, ih.mpr hbs]
      rfl

theorem exists_mem_of_mapM (h : as.mapM f = .ok bs) (ha : a ∈ as) : ∃ b ∈ bs, f a = .ok b := by
  obtain ⟨i, hi, rfl⟩ := mem_iff_getElem.mp ha
  obtain ⟨hlength, hget⟩ := List.forall₂_iff_get.mp (mapM_eq_ok_iff.mp h)
  exact ⟨bs[i], getElem_mem _, hget i hi (hlength ▸ hi)⟩

theorem exists_mem_of_mem_mapM (h : as.mapM f = .ok bs) {b : β} (hb : b ∈ bs) : ∃ a ∈ as, f a = .ok b := by
  obtain ⟨i, hi, rfl⟩ := mem_iff_getElem.mp hb
  obtain ⟨hlength, hget⟩ := List.forall₂_iff_get.mp (mapM_eq_ok_iff.mp h)
  exact ⟨as[i], getElem_mem _, hget i (hlength ▸ hi) hi⟩

theorem map_eq_of_mapM {γ : Type} (h : as.mapM f = .ok bs)
    {before : α → γ} {after : β → γ} (hkeep : ∀ a b, f a = .ok b → after b = before a) :
    bs.map after = as.map before := by
  rw [mapM_eq_ok_iff] at h
  induction h with
  | nil => rfl
  | cons hb _ ih => rw [map_cons, map_cons, hkeep _ _ hb, ih]

end QmlScript
