import QmlScript.Proofs.ManifestVariables
import QmlScript.Proofs.Settings

/-!
# Settings as they are read

In settings that were read from a text, every key stands once in its object and has no dots. So properties
are merged field by field, and a value that is no object replaces what was there.
-/

namespace QmlScript.Json

open List

section

variable {ε : Type} {build : List (String × Json) → Except ε Json} {P : Json → Prop}

/-- What holds of scalars and lists, and is kept when objects are built, holds of what is read. -/
theorem forall_readValue (hscalar : ∀ v : Json, v.IsScalar → P v) (hlist : ∀ items, P (.arr items))
    (hbuild : ∀ fields v, (∀ field ∈ fields, P field.2) → build fields = .ok v → P v) (depth : Nat) :
    (∀ s v rest, readValue build depth s = .ok (v, rest) → P v) ∧
      ∀ s fields rest, readFields build depth s = .ok (fields, rest) → ∀ field ∈ fields, P field.2 := by
  induction depth with
  | zero => exact ⟨fun s v rest h => (nomatch h), fun s fields rest h => (nomatch h)⟩
  | succ depth ih =>
    obtain ⟨ihValue, ihFields⟩ := ih
    refine ⟨fun s v rest h => ?_, fun s fields rest h => ?_⟩
    · unfold readValue at h
      split at h
      · obtain ⟨found, -, h⟩ := of_bind_eq_ok h
        cases h
        exact hscalar _ trivial
      · split at h
        · cases h
          exact hlist []
        · obtain ⟨found, -, h⟩ := of_bind_eq_ok h
          cases h
          exact hlist _
      · split at h
        · obtain ⟨value, hvalue, h⟩ := of_bind_eq_ok h
          cases h
          exact hbuild [] _ (fun _ h => absurd h not_mem_nil) (mapError_eq_ok_iff.1 hvalue)
        · obtain ⟨found, hfields, h⟩ := of_bind_eq_ok h
          obtain ⟨value, hvalue, h⟩ := of_bind_eq_ok h
          cases h
          exact hbuild _ _ (ihFields _ _ _ hfields) (mapError_eq_ok_iff.1 hvalue)
      · split at h
        · rename_i hword
          cases h
          exact hscalar _ (isScalar_of_readWord? hword)
        · dsimp only at h
          split at h
          · rename_i number s' hnumber
            obtain ⟨value, hvalue, h⟩ := of_bind_eq_ok h
            cases h
            rw [mapError_eq_ok_iff.1 hvalue] at hnumber
            split at hnumber
            · exact hscalar _ (isScalar_of_readNumber? hnumber)
            · exact hscalar _ (isScalar_of_readNumber? hnumber)
          · cases h
    · unfold readFields at h
      split at h
      · obtain ⟨key, -, h⟩ := of_bind_eq_ok h
        dsimp only at h
        split at h
        · obtain ⟨found, hvalue, h⟩ := of_bind_eq_ok h
          have hfound := ihValue _ _ _ hvalue
          split at h
          · obtain ⟨others, hothers, h⟩ := of_bind_eq_ok h
            cases h
            exact forall_mem_cons.2 ⟨hfound, ihFields _ _ _ hothers⟩
          · cases h
            exact forall_mem_singleton.2 hfound
          · cases h
        · cases h
      · cases h

theorem forall_readWith (hscalar : ∀ v : Json, v.IsScalar → P v) (hlist : ∀ items, P (.arr items))
    (hbuild : ∀ fields v, (∀ field ∈ fields, P field.2) → build fields = .ok v → P v) {text : String} {v : Json}
    (h : readWith build text = .ok v) : P v := by
  unfold readWith at h
  dsimp only at h
  split at h
  · cases h
  · obtain ⟨found, hfound, h⟩ := of_bind_eq_ok h
    have hvalue := (forall_readValue hscalar hlist hbuild _).1 _ _ _ hfound
    split at h
    · cases h
      exact hvalue
    · cases h

end

variable {key : String} {fields : List (String × Json)}

theorem field?_eq_none (h : key ∉ fields.map Prod.fst) : field? key fields = none := by
  cases hfield : field? key fields with
  | none => rfl
  | some v => exact absurd (mem_map_of_mem (mem_of_field? hfield)) h

theorem field?_foldl_setField (h : (fields.map Prod.fst).Nodup) (kept : List (String × Json)) :
    field? key (fields.foldl (fun kept field => setField field.1 field.2 kept) kept) =
      (field? key fields).or (field? key kept) := by
  induction fields generalizing kept with
  | nil => rfl
  | cons field fields ih =>
    obtain ⟨name, value⟩ := field
    rw [map_cons, nodup_cons] at h
    rw [foldl_cons, ih h.2, field?, field?_setField]
    by_cases hname : name = key
    · subst hname
      have hnone : field? name fields = none := field?_eq_none h.1
      rw [hnone, if_pos rfl, if_pos rfl]
      rfl
    · rw [if_neg hname, if_neg hname]

end QmlScript.Json

namespace QmlScript.Setting

open Json List

/-- In every object a key stands once, and no key has a dot. -/
inductive Expanded : Json → Prop where
  | value {v : Json} (h : ∀ fields, v ≠ .obj fields) : Expanded v
  | obj {fields : List (String × Json)} (keys : (fields.map Prod.fst).Nodup)
    (undotted : ∀ field ∈ fields, '.' ∉ field.1.toList) (inside : ∀ field ∈ fields, Expanded field.2) :
    Expanded (.obj fields)

variable {v data data' value settings : Json} {fields kept : List (String × Json)} {key : String} {way : List String}
  {field : String × Json} {old : Option Json} {bound : Nat}

theorem Expanded.empty : Expanded (.obj []) :=
  .obj nodup_nil (fun _ h => absurd h not_mem_nil) fun _ h => absurd h not_mem_nil

theorem Expanded.keys (h : Expanded (.obj fields)) : (fields.map Prod.fst).Nodup := by
  cases h with
  | value hne => exact absurd rfl (hne fields)
  | obj keys _ _ => exact keys

theorem Expanded.undotted (h : Expanded (.obj fields)) (hfield : field ∈ fields) :
    '.' ∉ field.1.toList := by
  cases h with
  | value hne => exact absurd rfl (hne fields)
  | obj _ undotted _ => exact undotted field hfield

theorem Expanded.of_mem (h : Expanded (.obj fields)) (hfield : field ∈ fields) :
    Expanded field.2 := by
  cases h with
  | value hne => exact absurd rfl (hne fields)
  | obj _ _ inside => exact inside field hfield

theorem Expanded.of_field? (h : Expanded (.obj fields)) (hv : field? key fields = some v) : Expanded v :=
  h.of_mem (mem_of_field? hv)

theorem Expanded.getD (h : Expanded (.obj fields)) : Expanded ((field? key fields).getD (.obj [])) := by
  cases hfield : field? key fields with
  | none => exact .empty
  | some v => exact h.of_field? hfield

theorem Expanded.setField (h : Expanded (.obj fields)) (hkey : '.' ∉ key.toList) (hv : Expanded v) :
    Expanded (.obj (Json.setField key v fields)) := by
  cases h with
  | value hne => exact absurd rfl (hne fields)
  | obj keys undotted inside =>
    refine .obj (nodup_setField keys) (fun field hfield => ?_) fun field hfield => ?_
    · rcases mem_setField hfield with rfl | hfield
      · exact hkey
      · exact undotted field hfield
    · rcases mem_setField hfield with rfl | hfield
      · exact hv
      · exact inside field hfield

theorem Expanded.setPath (h : Expanded data) (hvalue : Expanded value) (hway : ∀ key ∈ way, '.' ∉ key.toList)
    (hset : Setting.setPath value way data = .ok data') : Expanded data' := by
  replace hset := isSet_of_setPath hset
  induction hset with
  | here => exact hvalue
  | inside _ ih =>
    obtain ⟨hkey, hway⟩ := forall_mem_cons.1 hway
    exact h.setField hkey (ih h.getD hway)

theorem Expanded.set {name : String} (h : Expanded data) (hvalue : Expanded value)
    (hset : Setting.set data name value = .ok data') : Expanded data' :=
  h.setPath hvalue (fun _ => not_mem_of_mem_splitText) hset

theorem expanded_ofPairs {pairs : List (String × Json)} (h : ∀ pair ∈ pairs, Expanded pair.2)
    (hpairs : Setting.ofPairs pairs = .ok v) : Expanded v := by
  suffices hfold : ∀ data, Expanded data →
      pairs.foldlM (fun settings pair => Setting.set settings pair.1 pair.2) data = .ok v → Expanded v from
    hfold (.obj []) .empty hpairs
  clear hpairs
  induction pairs with
  | nil =>
    intro data hdata hv
    cases hv
    exact hdata
  | cons pair pairs ih =>
    intro data hdata hv
    obtain ⟨hpair, h⟩ := forall_mem_cons.1 h
    rw [foldlM_cons] at hv
    obtain ⟨next, hnext, hv⟩ := of_bind_eq_ok hv
    exact ih h next (hdata.set hpair hnext) hv

theorem path_of_undotted (h : '.' ∉ key.toList) : path key = [key] := by
  rw [path, splitText, Text.splitOn_of_not_mem h, map_singleton, String.ofList_toList]

theorem ofPairs_of_expanded (h : Expanded (.obj fields)) : Setting.ofPairs fields = .ok (.obj fields) := by
  cases h with
  | value hne => exact absurd rfl (hne fields)
  | obj keys undotted inside =>
    clear inside
    unfold Setting.ofPairs
    induction fields using List.reverseRecOn with
    | nil => rfl
    | append_singleton fields field ih =>
      obtain ⟨name, value⟩ := field
      rw [map_append, nodup_append] at keys
      have hnew : name ∉ fields.map Prod.fst := fun hname => keys.2.2 name hname name (by simp) rfl
      rw [forall_mem_append, forall_mem_singleton] at undotted
      rw [foldlM_append, ih keys.1 undotted.1]
      show Setting.set (.obj fields) name value >>= pure = _
      rw [Setting.set, path_of_undotted undotted.2, setPath, setField_of_not_mem hnew]
      rfl

/-- An object is merged into a setting, any other value replaces it. -/
def mergeValue (old : Option Json) : Json → Except SettingError Json
  | .obj fields => merge (old.getD (.obj [])) (.obj fields)
  | value => .ok value

def mergeAll (kept fields : List (String × Json)) : Except SettingError (List (String × Json)) :=
  fields.foldlM
    (fun kept field => do return Json.setField field.1 (← mergeValue (field? field.1 kept) field.2) kept) kept

theorem mergeAll_cons : mergeAll kept ((key, value) :: fields) =
    mergeValue (field? key kept) value >>= fun inner => mergeAll (Json.setField key inner kept) fields := by
  rw [mergeAll, foldlM_cons]
  cases mergeValue (field? key kept) value <;> rfl

theorem mergeValue_value (h : ∀ fields, value ≠ .obj fields) :
    mergeValue old value = .ok value := by
  cases value with
  | obj fields => exact absurd rfl (h fields)
  | _ => rfl

theorem mergeValue_cases (h : mergeValue old value = .ok v) :
    (∃ new, value = .obj new ∧ merge (old.getD (.obj [])) (.obj new) = .ok v) ∨
      (∀ fields, value ≠ .obj fields) ∧ v = value := by
  cases value with
  | obj new => exact .inl ⟨new, rfl, h⟩
  | _ => exact .inr ⟨nofun, (Except.ok.inj h).symm⟩

theorem mergeFields_eq (hbound : 2 * fieldsWeight fields < bound)
    (h : ∀ field ∈ fields, ∀ bound target, 2 * weight field.2 + 1 < bound →
      mergeUpTo bound target field.2 = merge target field.2) :
    mergeFields bound (.obj kept) fields = (mergeAll kept fields).map .obj := by
  induction fields generalizing bound kept with
  | nil =>
    rw [mergeFields]
    rfl
  | cons field fields ih =>
    obtain ⟨name, value⟩ := field
    obtain ⟨bound, rfl⟩ := Nat.exists_eq_succ_of_ne_zero (Nat.ne_zero_of_lt hbound)
    rw [fieldsWeight] at hbound
    obtain ⟨hvalue, hfields⟩ := forall_mem_cons.1 h
    rw [mergeAll_cons]
    cases value with
    | obj new =>
      rw [mergeFields, mergeValue, hvalue _ _ (by dsimp only; omega)]
      cases merge ((field? name kept).getD (.obj [])) (.obj new) with
      | error e => rfl
      | ok inner => exact ih (by omega) hfields
    | _ => exact ih (by omega) hfields

/-- Where nothing can be set, only the empty object can be merged. -/
theorem mergeFields_of_ne (fields : List (String × Json)) (h : ∀ kept, data ≠ .obj kept) :
    ∃ result, (∀ bound, mergeFields (bound + 1) data fields = result) ∧
      ∀ settings, result = .ok settings ↔ fields = [] ∧ settings = data := by
  cases fields with
  | nil => exact ⟨.ok data, fun _ => rfl, fun settings => by simp [eq_comm]⟩
  | cons field fields =>
    obtain ⟨name, value⟩ := field
    cases data with
    | obj kept => exact absurd rfl (h kept)
    | _ => cases value <;> exact ⟨.error _, fun _ => rfl, fun settings => by simp⟩

theorem mergeUpTo_obj (h : Expanded (.obj fields)) :
    mergeUpTo (bound + 1) data (.obj fields) = mergeFields bound data fields := by
  rw [mergeUpTo, ofPairs_of_expanded h]
  rfl

/-- The bound does not matter as long as it is large enough for the source. -/
theorem mergeUpTo_eq (h : Expanded v) (hbound : 2 * weight v + 1 < bound) :
    mergeUpTo bound data v = merge data v := by
  obtain ⟨bound, rfl⟩ := Nat.exists_eq_succ_of_ne_zero (Nat.ne_zero_of_lt hbound)
  induction h generalizing bound data with
  | @value v hne =>
    cases v with
    | obj fields => exact absurd rfl (hne fields)
    | _ => rfl
  | @obj fields keys undotted inside ih =>
    have hfields : ∀ field ∈ fields, ∀ bound target, 2 * weight field.2 + 1 < bound →
        mergeUpTo bound target field.2 = merge target field.2 := by
      intro field hfield bound target hbound
      obtain ⟨bound, rfl⟩ := Nat.exists_eq_succ_of_ne_zero (Nat.ne_zero_of_lt hbound)
      exact ih field hfield bound hbound
    rw [merge, mergeUpTo_obj (.obj keys undotted inside), mergeUpTo_obj (.obj keys undotted inside)]
    rw [weight] at hbound ⊢
    by_cases hdata : ∃ kept, data = .obj kept
    · obtain ⟨kept, rfl⟩ := hdata
      rw [mergeFields_eq (by omega) hfields, mergeFields_eq (by omega) hfields]
    · obtain ⟨result, hresult, -⟩ := mergeFields_of_ne fields (not_exists.mp hdata)
      obtain ⟨bound, rfl⟩ := Nat.exists_eq_succ_of_ne_zero (n := bound) (by omega)
      exact (hresult _).trans (hresult _).symm

theorem merge_obj (h : Expanded (.obj fields)) : merge (.obj kept) (.obj fields) = (mergeAll kept fields).map .obj := by
  rw [merge, mergeUpTo_obj h]
  refine mergeFields_eq (by rw [weight]; omega) fun field hfield bound target hbound => ?_
  exact mergeUpTo_eq (h.of_mem hfield) hbound

theorem merge_cases (hsource : Expanded (.obj fields)) (h : merge data (.obj fields) = .ok settings) :
    (∃ kept all, data = .obj kept ∧ settings = .obj all ∧ mergeAll kept fields = .ok all) ∨
      (∀ kept, data ≠ .obj kept) ∧ fields = [] ∧ settings = data := by
  by_cases hdata : ∃ kept, data = .obj kept
  · obtain ⟨kept, rfl⟩ := hdata
    rw [merge_obj hsource] at h
    obtain ⟨all, hall, h⟩ := of_bind_eq_ok h
    exact .inl ⟨kept, all, rfl, (Except.ok.inj h).symm, hall⟩
  · obtain ⟨result, hresult, hiff⟩ := mergeFields_of_ne fields (not_exists.mp hdata)
    rw [merge, mergeUpTo_obj hsource, hresult, hiff] at h
    exact .inr ⟨not_exists.mp hdata, h⟩

/-- After a merge, fields of the source are merged, and others as they were. -/
structure Overlaid (kept fields merged : List (String × Json)) : Prop where
  untouched : ∀ key, field? key fields = none → field? key merged = field? key kept
  touched : ∀ key v, field? key fields = some v →
    ∃ inner, mergeValue (field? key kept) v = .ok inner ∧ field? key merged = some inner

theorem overlaid_of_mergeAll {merged : List (String × Json)} (hkeys : (fields.map Prod.fst).Nodup)
    (h : mergeAll kept fields = .ok merged) : Overlaid kept fields merged := by
  induction fields generalizing kept with
  | nil =>
    cases h
    exact ⟨fun _ _ => rfl, fun _ _ hv => nomatch hv⟩
  | cons field fields ih =>
    obtain ⟨name, value⟩ := field
    rw [map_cons, nodup_cons] at hkeys
    rw [mergeAll_cons] at h
    obtain ⟨inner, hinner, h⟩ := of_bind_eq_ok h
    obtain ⟨huntouched, htouched⟩ := ih hkeys.2 h
    have hname : field? name merged = some inner := by
      rw [huntouched name (field?_eq_none hkeys.1), field?_setField, if_pos rfl]
    refine ⟨fun key hkey => ?_, fun key v hv => ?_⟩
    · rw [field?] at hkey
      split at hkey
      · cases hkey
      · rename_i hne
        rw [huntouched key hkey, field?_setField, if_neg hne]
    · rw [field?] at hv
      split at hv
      · rename_i heq
        subst heq
        cases hv
        exact ⟨inner, hinner, hname⟩
      · rename_i hne
        have hmerged := htouched key v hv
        rwa [field?_setField, if_neg hne] at hmerged

theorem field?_merge (hsource : Expanded v) (hvalue : ∀ w, v.get? key = some w → ∀ inner, w ≠ .obj inner)
    (h : merge (.obj kept) v = .ok settings) :
    ∃ merged, settings = .obj merged ∧ field? key merged = (v.get? key).or (field? key kept) := by
  cases v with
  | obj fields =>
    obtain ⟨_, merged, ⟨⟩, rfl, hmerged⟩ | ⟨hne, -⟩ := merge_cases hsource h
    swap
    · exact absurd rfl (hne kept)
    have hoverlaid := overlaid_of_mergeAll hsource.keys hmerged
    refine ⟨merged, rfl, ?_⟩
    show _ = (field? key fields).or _
    cases hfield : field? key fields with
    | none => exact hoverlaid.untouched key hfield
    | some w =>
      obtain ⟨inner, hinner, hkey⟩ := hoverlaid.touched key w hfield
      rw [mergeValue_value (hvalue w hfield)] at hinner
      rw [hkey, ← Except.ok.inj hinner]
      rfl
  | _ => cases h

end QmlScript.Setting

namespace QmlScript.Manifest

open Setting

variable {m m' : Manifest} {key : String} {properties : Json}

def property? (m : Manifest) (key : String) : Option Json := m.properties.toOption.bind (Json.get? key)

theorem expanded_read {text : String} (h : Manifest.read text = .ok m) : Expanded m.data := by
  obtain ⟨data, hdata, h⟩ := of_bind_eq_ok h
  have hexpanded : Expanded data := by
    refine Json.forall_readWith (fun v hv => .value ?_) (fun items => .value nofun) (fun _ _ => expanded_ofPairs) hdata
    rintro fields rfl
    exact hv
  cases h
  cases data with
  | null => exact .empty
  | _ => exact hexpanded

theorem expanded_properties (h : Expanded m.data) (hproperties : m.properties = .ok properties) :
    Expanded properties := by
  obtain ⟨data⟩ := m
  cases data with
  | obj fields =>
    cases hproperties
    exact h.getD
  | _ => cases hproperties

theorem property?_eq (h : m.properties = .ok properties) :
    m.property? key = properties.get? key := by
  rw [property?, h]
  rfl

end QmlScript.Manifest
