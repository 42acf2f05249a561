import Mathlib.Data.List.Infix
import QmlScript.Codec
import QmlScript.Manifest
import QmlScript.Proofs.DottedNames
import QmlScript.Proofs.Numeral
import QmlScript.Proofs.Spelling

/-!
# Settings with dots in their names

A manifest may spell a setting with dots in a key or with objects inside of others. Each value in its text
that is no object with fields has a way of keys. If no way leads on from another, exactly those settings are
lost on which a later key of the same object is laid.
-/

namespace QmlScript.Setting

open List

open Json (field? setField)

variable {data data' value v d : Json} {way other front rest : List String} {fields : List (String × Json)}

/-! ## Values on ways -/

def at? : List String → Json → Option Json
  | [], value => some value
  | key :: way, .obj fields => (field? key fields).bind (at? way)
  | _ :: _, _ => none

def Apart (a b : List String) : Prop := ¬ a <+: b ∧ ¬ b <+: a

instance : DecidableRel Apart := fun _ _ => inferInstanceAs (Decidable (_ ∧ _))

theorem at?_empty (h : way ≠ []) : at? way (.obj []) = none := by
  obtain ⟨key, way, rfl⟩ := exists_cons_of_ne_nil h
  rfl

theorem at?_value (h : ∀ fields, v ≠ .obj fields) (hway : way ≠ []) : at? way v = none := by
  obtain ⟨key, way, rfl⟩ := exists_cons_of_ne_nil hway
  cases v with
  | obj fields => exact absurd rfl (h fields)
  | _ => rfl

/-- Settings with a value set on a way, made where there were none. -/
inductive IsSet (value : Json) : List String → Json → Json → Prop where
  | here {data : Json} : IsSet value [] data value
  | inside {key : String} {way : List String} {fields : List (String × Json)} {inner : Json}
    (h : IsSet value way ((field? key fields).getD (.obj [])) inner) :
    IsSet value (key :: way) (.obj fields) (.obj (setField key inner fields))

theorem setPath_cons {key : String} : setPath value (key :: way) (.obj fields) =
    do return .obj (setField key (← setPath value way ((field? key fields).getD (.obj []))) fields) := by
  cases way with
  | nil => rfl
  | cons next way =>
    rw [setPath]
    simp

theorem isSet_of_setPath (h : setPath value way data = .ok data') : IsSet value way data data' := by
  induction way generalizing data data' with
  | nil =>
    cases h
    exact .here
  | cons key way ih =>
    cases data with
    | obj fields =>
      rw [setPath_cons] at h
      obtain ⟨inner, hinner, h⟩ := of_bind_eq_ok h
      cases h
      exact .inside (ih hinner)
    | _ => cases way <;> cases h

theorem at?_setField {key : String} : at? (key :: way) (.obj (setField key value fields)) = at? way value := by
  rw [at?, Json.field?_setField, if_pos rfl]
  rfl

theorem IsSet.at?_append (h : IsSet value way data data') : at? (way ++ rest) data' = at? rest value := by
  induction h with
  | here => rfl
  | inside _ ih => rw [cons_append, at?_setField, ih]

theorem Apart.of_cons {key : String} (h : Apart (key :: way) (key :: other)) : Apart way other :=
  ⟨fun hw => h.1 (cons_prefix_cons.mpr ⟨rfl, hw⟩), fun ho => h.2 (cons_prefix_cons.mpr ⟨rfl, ho⟩)⟩

theorem IsSet.at?_of_apart (h : IsSet value way data data') (hapart : Apart way other) :
    at? other data' = at? other data := by
  induction h generalizing other with
  | here => exact absurd List.nil_prefix hapart.1
  | @inside key way fields inner _ ih =>
    cases other with
    | nil => exact absurd List.nil_prefix hapart.2
    | cons key' other =>
      by_cases hkey : key = key'
      · subst hkey
        have hrest := hapart.of_cons
        have hother : other ≠ [] := fun hnil => hrest.2 (hnil ▸ List.nil_prefix)
        rw [at?_setField, ih hrest, at?]
        cases field? key fields with
        | none => exact at?_empty hother
        | some old => rfl
      · rw [at?, at?, Json.field?_setField, if_neg hkey]

theorem IsSet.at?_front (h : IsSet value way data data') (hfront : other <+: way) (hne : other ≠ way) :
    ∃ fields, at? other data' = some (.obj fields) := by
  induction h generalizing other with
  | here => exact absurd (prefix_nil.mp hfront) hne
  | inside _ ih =>
    cases other with
    | nil => exact ⟨_, rfl⟩
    | cons key' other =>
      obtain ⟨rfl, hrest⟩ := cons_prefix_cons.mp hfront
      rw [at?_setField]
      exact ih hrest fun heq => hne (by rw [heq])

theorem exists_setPath (value : Json) (h : ∀ front v, front <+: way → front ≠ way → at? front data = some v →
    ∃ fields, v = .obj fields) : ∃ data', setPath value way data = .ok data' := by
  induction way generalizing data with
  | nil => exact ⟨value, rfl⟩
  | cons key way ih =>
    obtain ⟨fields, rfl⟩ := h [] data List.nil_prefix (by simp) rfl
    obtain ⟨inner, hinner⟩ : ∃ inner, setPath value way ((field? key fields).getD (.obj [])) = .ok inner := by
      refine ih fun front v hfront hne hv => ?_
      cases hfield : field? key fields with
      | none =>
        rw [hfield] at hv
        cases front with
        | nil => exact ⟨[], (Option.some.inj hv).symm⟩
        | cons _ _ => cases hv
      | some old =>
        rw [hfield] at hv
        refine h (key :: front) v (cons_prefix_cons.mpr ⟨rfl, hfront⟩) (fun heq => hne (List.cons.inj heq).2) ?_
        rw [at?, hfield]
        exact hv
    rw [setPath_cons, hinner]
    exact ⟨_, rfl⟩

/-! ## What a text says -/

mutual

/-- The ways of the leaves of a value: all that is no object with fields. -/
def leafWays : Json → List (List String)
  | .obj [] => [[]]
  | .obj (field :: fields) => fieldWays (field :: fields)
  | _ => [[]]

/-- The ways of the leaves of fields, with dotted keys taken apart. -/
def fieldWays : List (String × Json) → List (List String)
  | [] => []
  | (key, value) :: fields => (leafWays value).map (path key ++ ·) ++ fieldWays fields

end

/-- In every object of the value, the ways of leaves are apart. -/
inductive Clear : Json → Prop where
  | scalar {v : Json} (h : v.IsScalar) : Clear v
  | arr {items : List Json} (h : ∀ item ∈ items, Clear item) : Clear (.arr items)
  | obj {fields : List (String × Json)} (ways : (leafWays (.obj fields)).Pairwise Apart)
    (h : ∀ field ∈ fields, Clear field.2) : Clear (.obj fields)

/-- The key of a later field does not lead to where the way of a leaf goes through. -/
abbrev KeepsClear (field later : String × Json) : Prop :=
  ∀ way ∈ leafWays field.2, ¬ path later.1 <+: path field.1 ++ way

/-- In every object of the value, no key is laid on an earlier leaf. -/
inductive Ordered : Json → Prop where
  | scalar {v : Json} (h : v.IsScalar) : Ordered v
  | arr {items : List Json} (h : ∀ item ∈ items, Ordered item) : Ordered (.arr items)
  | obj {fields : List (String × Json)}
    (keys : fields.Pairwise KeepsClear) (h : ∀ field ∈ fields, Ordered field.2) : Ordered (.obj fields)

mutual

/-- Settings have at a place all that a value says: each leaf at the end of its way. -/
def Kept : (said settings : Json) → (place : List String) → Prop
  | .obj [], settings, place => at? place settings = some (.obj [])
  | .obj (field :: fields), settings, place => KeptFields (field :: fields) settings place
  | .arr items, settings, place => ∃ values, at? place settings = some (.arr values) ∧ KeptItems items values
  | scalar, settings, place => at? place settings = some scalar

def KeptFields : (fields : List (String × Json)) → (settings : Json) → (place : List String) → Prop
  | [], _, _ => True
  | (key, value) :: fields, settings, place =>
    Kept value settings (place ++ path key) ∧ KeptFields fields settings place

def KeptItems : (items values : List Json) → Prop
  | [], values => values = []
  | item :: items, values => ∃ value rest, values = value :: rest ∧ Kept item value [] ∧ KeptItems items rest

end

theorem path_ne_nil (key : String) : path key ≠ [] := splitText_ne_nil '.' key

theorem isObj_of_set {key : String} (h : set data key value = .ok data') : ∃ fields, data' = .obj fields := by
  have hset := isSet_of_setPath h
  generalize hpath : path key = way at hset
  cases hset with
  | here => exact absurd hpath (path_ne_nil key)
  | inside _ => exact ⟨_, rfl⟩

theorem fieldWays_eq (fields : List (String × Json)) :
    fieldWays fields = fields.flatMap fun field => (leafWays field.2).map (path field.1 ++ ·) := by
  induction fields with
  | nil => rfl
  | cons field fields ih => rw [fieldWays, ih, flatMap_cons]

theorem leafWays_obj (h : fields ≠ []) : leafWays (.obj fields) = fieldWays fields := by
  cases fields with
  | nil => exact absurd rfl h
  | cons field fields => rfl

theorem leafWays_scalar (h : v.IsScalar) : leafWays v = [[]] := by
  cases v with
  | obj fields => exact h.elim
  | _ => rfl

theorem exists_leafWay (v : Json) : ∃ way, way ∈ leafWays v := by
  induction v using Json.induct with
  | scalar v h => exact ⟨[], by simp [leafWays_scalar h]⟩
  | arr items => exact ⟨[], mem_singleton_self _⟩
  | obj fields ih =>
    cases fields with
    | nil => exact ⟨[], mem_singleton_self _⟩
    | cons field fields =>
      obtain ⟨way, hway⟩ := ih field mem_cons_self
      refine ⟨path field.1 ++ way, ?_⟩
      rw [leafWays_obj (by simp), fieldWays]
      exact mem_append_left _ (mem_map_of_mem hway)

theorem kept_scalar (h : v.IsScalar) : Kept v data place ↔ at? place data = some v := by
  cases v with
  | arr items | obj fields => exact h.elim
  | _ => rfl

theorem keptItems_iff {values : List Json} :
    KeptItems items values ↔ List.Forall₂ (fun item value => Kept item value []) items values := by
  induction items generalizing values with
  | nil => simp [KeptItems]
  | cons item items ih =>
    rw [KeptItems, List.forall₂_cons_left_iff]
    simp only [ih]
    constructor
    · rintro ⟨value, rest, rfl, hvalue, hrest⟩
      exact ⟨value, rest, hvalue, hrest, rfl⟩
    · rintro ⟨value, rest, hvalue, hrest, rfl⟩
      exact ⟨value, rest, rfl, hvalue, hrest⟩

theorem kept_fields (h : fields ≠ []) :
    Kept (.obj fields) data place ↔ ∀ field ∈ fields, Kept field.2 data (place ++ path field.1) := by
  have hfields : KeptFields fields data place ↔ ∀ field ∈ fields, Kept field.2 data (place ++ path field.1) := by
    clear h
    induction fields with
    | nil => simp [KeptFields]
    | cons field fields ih => rw [KeptFields, ih, forall_mem_cons]
  rw [← hfields]
  cases fields with
  | nil => exact absurd rfl h
  | cons field fields => rfl

/-- What is kept is a matter of the values at the ends of ways. -/
theorem kept_congr {place' : List String}
    (h : ∀ way ∈ leafWays v, at? (place ++ way) data = at? (place' ++ way) data') :
    Kept v data place ↔ Kept v data' place' := by
  induction v using Json.induct generalizing place place' with
  | scalar v hv =>
    have hat := h [] (by simp [leafWays_scalar hv])
    rw [append_nil, append_nil] at hat
    rw [kept_scalar hv, kept_scalar hv, hat]
  | arr items =>
    have hat := h [] (mem_singleton_self _)
    rw [append_nil, append_nil] at hat
    rw [Kept, Kept, hat]
  | obj fields ih =>
    by_cases hnil : fields = []
    · subst hnil
      have hat := h [] (mem_singleton_self _)
      rw [append_nil, append_nil] at hat
      rw [Kept, Kept, hat]
    · rw [kept_fields hnil, kept_fields hnil]
      refine forall₂_congr fun field hfield => ih field hfield fun way hway => ?_
      rw [append_assoc, append_assoc]
      refine h _ ?_
      rw [leafWays_obj hnil, fieldWays_eq]
      exact mem_flatMap.mpr ⟨field, hfield, mem_map_of_mem hway⟩

theorem Kept.ne_none (h : Kept v data place) : ∀ way ∈ leafWays v, at? (place ++ way) data ≠ none := by
  induction v using Json.induct generalizing place with
  | scalar v hv =>
    rw [leafWays_scalar hv]
    rintro way hway
    rw [mem_singleton.mp hway, append_nil, (kept_scalar hv).mp h]
    exact Option.some_ne_none _
  | arr items =>
    rintro way hway
    rw [Kept] at h
    obtain ⟨values, hat, -⟩ := h
    rw [mem_singleton.mp hway, append_nil, hat]
    exact Option.some_ne_none _
  | obj fields ih =>
    by_cases hnil : fields = []
    · subst hnil
      rintro way hway
      rw [Kept] at h
      rw [mem_singleton.mp hway, append_nil, h]
      exact Option.some_ne_none _
    · rw [kept_fields hnil] at h
      rw [leafWays_obj hnil, fieldWays_eq]
      intro way hway
      obtain ⟨field, hfield, hway⟩ := mem_flatMap.mp hway
      obtain ⟨inner, hinner, rfl⟩ := mem_map.mp hway
      rw [← append_assoc]
      exact ih field hfield (h field hfield) inner hinner

/-! ## One key after the other -/

/-- Settings hold only what is on some ways, and settings before their ends. -/
def Within (ways : List (List String)) (data : Json) : Prop :=
  ∀ way x, way ≠ [] → at? way data = some x →
    ∃ leaf ∈ ways, way <+: leaf ∧ ((∀ fields, x ≠ .obj fields) → way = leaf)

def Grown (v d : Json) : Prop :=
  ∀ way x, at? way d = some x → ∃ leaf ∈ leafWays v, way <+: leaf ∧ ((∀ fields, x ≠ .obj fields) → way = leaf)

theorem Within.grown (h : Within (leafWays v) (.obj fields)) : Grown v (.obj fields) := by
  intro way x hx
  by_cases hway : way = []
  · subst hway
    obtain ⟨leaf, hleaf⟩ := exists_leafWay v
    exact ⟨leaf, hleaf, List.nil_prefix, fun hne => absurd (Option.some.inj hx).symm (hne fields)⟩
  · exact h way x hway hx

theorem grown_value (hv : leafWays v = [[]]) (hd : ∀ fields, d ≠ .obj fields) : Grown v d := by
  intro way x hx
  have hway : way = [] := by
    by_contra hway
    rw [at?_value hd hway] at hx
    cases hx
  rw [hv]
  exact ⟨[], mem_singleton_self _, hway ▸ prefix_rfl, fun _ => hway⟩

variable {ways : List (List String)} {key : String}
variable {place : List String} {items : List Json}

/-- A value can be set if its leaves are apart from all ways. Only leaves its key leads to go. -/
theorem Within.set (h : Within ways (.obj fields)) (hd : Grown v d)
    (hapart : ∀ leaf ∈ ways, ∀ way ∈ leafWays v, Apart leaf (path key ++ way)) :
    ∃ fields', Setting.set (.obj fields) key d = .ok (.obj fields') ∧
      Within (ways ++ (leafWays v).map (path key ++ ·)) (.obj fields') ∧
      (∀ leaf ∈ ways, ¬ path key <+: leaf → at? leaf (.obj fields') = at? leaf (.obj fields)) ∧
      (∀ leaf ∈ ways, path key <+: leaf → at? leaf (.obj fields') = none) ∧
      ∀ way, at? (path key ++ way) (.obj fields') = at? way d := by
  obtain ⟨some, hsome⟩ := exists_leafWay v
  have hset : ∃ data', setPath d (path key) (.obj fields) = .ok data' := by
    refine exists_setPath d fun front x hfront hne hx => ?_
    by_contra hobj
    by_cases hnil : front = []
    · subst hnil
      exact hobj ⟨fields, (Option.some.inj hx).symm⟩
    · obtain ⟨leaf, hleaf, -, heq⟩ := h front x hnil hx
      obtain rfl := heq fun fields heq => hobj ⟨fields, heq⟩
      exact (hapart front hleaf some hsome).1 (hfront.trans (prefix_append _ _))
  obtain ⟨data', hdata'⟩ := hset
  have hgrown := isSet_of_setPath hdata'
  obtain ⟨fields', rfl⟩ := isObj_of_set hdata'
  refine ⟨fields', hdata', fun way x hway hx => ?_, fun leaf hleaf hkey => ?_, fun leaf hleaf hkey => ?_, fun way => ?_⟩
  · by_cases hbelow : path key <+: way
    · obtain ⟨rest, rfl⟩ := hbelow
      rw [hgrown.at?_append] at hx
      obtain ⟨leaf, hleaf, hrest, hend⟩ := hd rest x hx
      refine ⟨path key ++ leaf, mem_append_right _ (mem_map_of_mem hleaf), ?_, fun hne => by rw [hend hne]⟩
      exact (prefix_append_right_inj _).mpr hrest
    · by_cases habove : way <+: path key
      · have hne : way ≠ path key := fun heq => hbelow (heq ▸ prefix_rfl)
        obtain ⟨fields', hfields'⟩ := hgrown.at?_front habove hne
        refine ⟨path key ++ some, mem_append_right _ (mem_map_of_mem hsome),
          habove.trans (prefix_append _ _), fun hobj => ?_⟩
        rw [hfields'] at hx
        exact absurd (Option.some.inj hx).symm (hobj fields')
      · rw [hgrown.at?_of_apart ⟨hbelow, habove⟩] at hx
        obtain ⟨leaf, hleaf, hrest⟩ := h way x hway hx
        exact ⟨leaf, mem_append_left _ hleaf, hrest⟩
  · have habove : ¬ leaf <+: path key := fun hfront =>
      (hapart leaf hleaf some hsome).1 (hfront.trans (prefix_append _ _))
    exact hgrown.at?_of_apart ⟨hkey, habove⟩
  · obtain ⟨rest, rfl⟩ := hkey
    rw [hgrown.at?_append]
    cases hx : at? rest d with
    | none => rfl
    | some x =>
      obtain ⟨other, hother, hrest, -⟩ := hd rest x hx
      exact absurd ((prefix_append_right_inj _).mpr hrest) (hapart _ hleaf other hother).1
  · exact hgrown.at?_append

/-- What setting field after field leaves, by induction: leaves so far are among the ways. -/
theorem Within.setAll {made : Json → Json} {current : List (String × Json)} (h : Within ways (.obj current))
    (hmade : ∀ field ∈ fields, Grown field.2 (made field.2)) (hapart : (ways ++ fieldWays fields).Pairwise Apart) :
    ∃ final, (fields.map fun field => (field.1, made field.2)).foldlM
        (fun settings pair => Setting.set settings pair.1 pair.2) (.obj current) = .ok (.obj final) ∧
      Within (ways ++ fieldWays fields) (.obj final) ∧
      (∀ leaf ∈ ways, (∀ field ∈ fields, ¬ path field.1 <+: leaf) → at? leaf (.obj final) = at? leaf (.obj current)) ∧
      (∀ leaf ∈ ways, (at? leaf (.obj current) = none ∨ ∃ field ∈ fields, path field.1 <+: leaf) →
        at? leaf (.obj final) = none) ∧
      ((∀ field ∈ fields, Kept field.2 (.obj final) (path field.1)) ↔
        fields.Pairwise KeepsClear ∧ ∀ field ∈ fields, Kept field.2 (made field.2) []) := by
  induction fields generalizing ways current with
  | nil => exact ⟨current, rfl, by simpa [fieldWays] using h, by simp, by simp, by simp⟩
  | cons field fields ih =>
    obtain ⟨key, v⟩ := field
    rw [fieldWays, ← append_assoc] at hapart
    have hfirst := (pairwise_append.mp hapart).1
    have hcross : ∀ leaf ∈ ways, ∀ way ∈ leafWays v, Apart leaf (path key ++ way) := fun leaf hleaf way hway =>
      (pairwise_append.mp hfirst).2.2 leaf hleaf _ (mem_map_of_mem hway)
    obtain ⟨next, hset, hwithin, hstay, hgone, hnew⟩ := h.set (hmade (key, v) mem_cons_self) hcross
    obtain ⟨final, hfold, hwithin', hstay', hgone', hkept⟩ :=
      ih hwithin (fun field hfield => hmade field (mem_cons_of_mem _ hfield)) hapart
    refine ⟨final, ?_, ?_, fun leaf hleaf hkeys => ?_, fun leaf hleaf hlost => ?_, ?_⟩
    · rw [map_cons, foldlM_cons, hset]
      exact hfold
    · rwa [fieldWays, ← append_assoc]
    · rw [forall_mem_cons] at hkeys
      rw [hstay' leaf (mem_append_left _ hleaf) hkeys.2, hstay leaf hleaf hkeys.1]
    · refine hgone' leaf (mem_append_left _ hleaf) ?_
      by_cases hkey : path key <+: leaf
      · exact .inl (hgone leaf hleaf hkey)
      · rcases hlost with hnone | ⟨field, hfield, hlaid⟩
        · exact .inl ((hstay leaf hleaf hkey).trans hnone)
        · rcases mem_cons.mp hfield with rfl | hfield
          · exact absurd hlaid hkey
          · exact .inr ⟨field, hfield, hlaid⟩
    · have hhead : Kept v (.obj final) (path key) ↔
          (∀ later ∈ fields, KeepsClear (key, v) later) ∧ Kept v (made v) [] := by
        have hmem : ∀ way ∈ leafWays v, path key ++ way ∈ ways ++ (leafWays v).map (path key ++ ·) := fun way hway =>
          mem_append_right _ (mem_map_of_mem hway)
        by_cases hclear : ∀ later ∈ fields, KeepsClear (key, v) later
        · have hsame : Kept v (.obj final) (path key) ↔ Kept v (made v) [] := kept_congr fun way hway => by
            rw [hstay' _ (hmem way hway) fun later hlater => hclear later hlater way hway, hnew way, nil_append]
          exact hsame.trans (and_iff_right hclear).symm
        · refine iff_of_false (fun hkept => ?_) fun hboth => hclear hboth.1
          simp only [KeepsClear, not_forall, not_not] at hclear
          obtain ⟨later, hlater, way, hway, hlaid⟩ := hclear
          exact hkept.ne_none way hway (hgone' _ (hmem way hway) (.inr ⟨later, hlater, hlaid⟩))
      rw [forall_mem_cons, forall_mem_cons, pairwise_cons, hkept]
      dsimp only
      rw [hhead]
      tauto

theorem isObj_of_foldlM {pairs : List (String × Json)}
    (h : pairs.foldlM (fun settings pair => set settings pair.1 pair.2) (.obj fields) = .ok d) :
    ∃ fields, d = .obj fields := by
  induction pairs generalizing fields with
  | nil => exact ⟨fields, (Except.ok.inj h).symm⟩
  | cons pair pairs ih =>
    rw [foldlM_cons] at h
    obtain ⟨next, hset, h⟩ := of_bind_eq_ok h
    obtain ⟨fields, rfl⟩ := isObj_of_set hset
    exact ih h

/-- A value with its objects made by setting one key after the other. -/
def expand : Json → Except SettingError Json := Json.rebuild ofPairs

def expanded (v : Json) : Json :=
  match expand v with
  | .ok d => d
  | .error _ => .null

theorem expanded_eq (h : expand v = .ok d) : expanded v = d := by rw [expanded, h]

theorem rebuildFields_eq (h : ∀ field ∈ fields, ∃ d, expand field.2 = .ok d) :
    Json.rebuildFields ofPairs fields = .ok (fields.map fun field => (field.1, expanded field.2)) := by
  induction fields with
  | nil => rfl
  | cons field fields ih =>
    obtain ⟨⟨d, hd⟩, hrest⟩ := forall_mem_cons.mp h
    rw [Json.rebuildFields, ih hrest, map_cons, expanded_eq hd]
    rw [expand] at hd
    rw [hd]
    rfl

theorem rebuildItems_eq (h : ∀ item ∈ items, ∃ d, expand item = .ok d) :
    Json.rebuildItems ofPairs items = .ok (items.map expanded) := by
  induction items with
  | nil => rfl
  | cons item items ih =>
    obtain ⟨⟨d, hd⟩, hrest⟩ := forall_mem_cons.mp h
    rw [Json.rebuildItems, ih hrest, map_cons, expanded_eq hd]
    rw [expand] at hd
    rw [hd]
    rfl

theorem ordered_arr : Ordered (.arr items) ↔ ∀ item ∈ items, Ordered item := by
  constructor
  · intro h
    cases h with
    | scalar h => exact h.elim
    | arr h => exact h
  · exact .arr

theorem ordered_obj : Ordered (.obj fields) ↔ fields.Pairwise KeepsClear ∧ ∀ field ∈ fields, Ordered field.2 := by
  constructor
  · intro h
    cases h with
    | scalar h => exact h.elim
    | obj keys h => exact ⟨keys, h⟩
  · exact fun h => .obj h.1 h.2

/-- A value with leaves apart expands, and keeps what it says exactly if no key is laid on an earlier leaf. -/
theorem Clear.expand (h : Clear v) : ∃ d, expand v = .ok d ∧ Grown v d ∧ (Kept v d [] ↔ Ordered v) := by
  induction h with
  | @scalar v h =>
    have hobj : ∀ fields, v ≠ .obj fields := by
      rintro fields rfl
      exact h
    refine ⟨v, Json.rebuild_scalar h, grown_value (leafWays_scalar h) hobj, ?_⟩
    rw [kept_scalar h]
    exact iff_of_true rfl (.scalar h)
  | @arr items _ ih =>
    have hitems := rebuildItems_eq fun item hitem => (ih item hitem).imp fun d hd => hd.1
    refine ⟨.arr (items.map expanded), ?_, grown_value rfl (by simp), ?_⟩
    · rw [Setting.expand, Json.rebuild, hitems]
      rfl
    · have hkept : Kept (.arr items) (.arr (items.map expanded)) [] ↔ KeptItems items (items.map expanded) := by
        rw [Kept]
        constructor
        · rintro ⟨values, hvalues, hkept⟩
          cases hvalues
          exact hkept
        · exact fun hkept => ⟨_, rfl, hkept⟩
      rw [hkept, keptItems_iff, List.forall₂_map_right_iff, List.forall₂_same, ordered_arr]
      refine forall₂_congr fun item hitem => ?_
      obtain ⟨d, hd, -, hiff⟩ := ih item hitem
      rw [expanded_eq hd, hiff]
  | @obj fields ways _ ih =>
    have hstart : ∀ ways, Within ways (.obj []) := fun ways way x hway hx => by
      rw [at?_empty hway] at hx
      cases hx
    by_cases hnil : fields = []
    · subst hnil
      exact ⟨.obj [], rfl, (hstart _).grown, iff_of_true rfl (ordered_obj.mpr (by simp))⟩
    · have hfields := rebuildFields_eq fun field hfield => (ih field hfield).imp fun d hd => hd.1
      have hmade : ∀ field ∈ fields, Grown field.2 (expanded field.2) := by
        intro field hfield
        obtain ⟨d, hd, hgrown, -⟩ := ih field hfield
        rwa [expanded_eq hd]
      rw [leafWays_obj hnil] at ways
      obtain ⟨final, hfold, hwithin, -, -, hkept⟩ := (hstart []).setAll hmade ways
      refine ⟨.obj final, ?_, ?_, ?_⟩
      · rw [Setting.expand, Json.rebuild, hfields]
        exact hfold
      · rw [nil_append, ← leafWays_obj hnil] at hwithin
        exact hwithin.grown
      · rw [kept_fields hnil, ordered_obj]
        simp only [nil_append]
        rw [hkept]
        refine and_congr_right fun _ => forall₂_congr fun field hfield => ?_
        obtain ⟨d, hd, -, hiff⟩ := ih field hfield
        rw [expanded_eq hd, hiff]

end QmlScript.Setting

namespace QmlScript.Manifest

open List

open Setting (Clear Ordered Kept at?)

/-- A manifest whose leaves are apart from each other can be read. It has all that its text says exactly if
no key of an object is laid on a leaf of a field in front of it. -/
theorem read_kept_iff {text : String} {fields : List (String × Json)}
    (hspell : Json.spell text = .ok (.obj fields))
    (hclear : Clear (.obj fields)) :
    ∃ m, read text = .ok m ∧ (Kept (.obj fields) m.data [] ↔ Ordered (.obj fields)) := by
  obtain ⟨d, hd, -, hkept⟩ := hclear.expand
  have hread : Json.readWith Setting.ofPairs text = .ok d := by
    rw [Json.readWith_of_spell hspell]
    rw [Setting.expand] at hd
    rw [hd]
    rfl
  obtain ⟨data, rfl⟩ : ∃ fields, d = .obj fields := by
    rw [Setting.expand, Json.rebuild] at hd
    obtain ⟨pairs, -, hd⟩ := of_bind_eq_ok hd
    exact Setting.isObj_of_foldlM hd
  refine ⟨⟨.obj data⟩, ?_, hkept⟩
  rw [read, hread]
  rfl

def dottedFields : List (String × Json) :=
  [("app", .obj [("sizes", .arr [.obj [("a.b", .null)]])]), ("app.name", .str "y"), ("none", .obj [])]

theorem clear_dottedFields : Clear (.obj dottedFields) := by
  have hitem : Clear (.obj [("a.b", .null)]) :=
    .obj (pairwise_singleton _ _) (by simpa using .scalar trivial)
  have hsizes : Clear (.obj [("sizes", .arr [.obj [("a.b", .null)]])]) :=
    .obj (pairwise_singleton _ _) (by simpa using .arr (by simpa using hitem))
  have hways : Setting.leafWays (.obj dottedFields) = [["app", "sizes"], ["app", "name"], ["none"]] := by
    cbv
  refine .obj (by rw [hways]; decide) ?_
  simp only [dottedFields, forall_mem_cons, not_mem_nil, false_imp_iff, implies_true, and_true]
  exact ⟨hsizes, .scalar trivial, .obj (pairwise_singleton _ _) (by simp)⟩

theorem ordered_dottedFields : Ordered (.obj dottedFields) := by
  have hitem : Ordered (.obj [("a.b", .null)]) :=
    .obj (pairwise_singleton _ _) (by simpa using .scalar trivial)
  have hsizes : Ordered (.obj [("sizes", .arr [.obj [("a.b", .null)]])]) :=
    .obj (pairwise_singleton _ _) (by simpa using .arr (by simpa using hitem))
  refine .obj ?_ ?_
  · simp only [dottedFields, pairwise_cons, forall_mem_cons, not_mem_nil, false_imp_iff,
      implies_true, and_true, List.Pairwise.nil]
    decide
  · simp only [dottedFields, forall_mem_cons, not_mem_nil, false_imp_iff, implies_true, and_true]
    exact ⟨hsizes, .scalar trivial, .obj .nil (by simp)⟩

theorem read_kept_dotted :
    Json.spell (Json.obj dottedFields).text = .ok (.obj dottedFields) ∧ Clear (.obj dottedFields) ∧
      ∃ m, read (Json.obj dottedFields).text = .ok m ∧ Kept (.obj dottedFields) m.data [] := by
  have hspell : Json.spell (Json.obj dottedFields).text = .ok (.obj dottedFields) :=
    eq_ok_of_toOption (by decide +kernel)
  obtain ⟨m, hread, hkept⟩ := read_kept_iff hspell clear_dottedFields
  exact ⟨hspell, clear_dottedFields, m, hread, hkept.mpr ordered_dottedFields⟩

/-- A section with a dot in front of the same section without one. -/
def overlaidFields : List (String × Json) := [("a.b", .bool true), ("a", .obj [("c", .bool false)])]

theorem leafWays_overlaidFields : Setting.leafWays (.obj overlaidFields) = [["a", "b"], ["a", "c"]] := by
  cbv

theorem clear_overlaidFields : Clear (.obj overlaidFields) := by
  refine .obj (by rw [leafWays_overlaidFields]; decide) ?_
  simp only [overlaidFields, forall_mem_cons, not_mem_nil, false_imp_iff, implies_true, and_true]
  exact ⟨.scalar trivial, .obj (pairwise_singleton _ _) (by simpa using .scalar trivial)⟩

/-- Settings get lost: a section takes the place of what an earlier key with a dot has set in it. -/
theorem settings_overlaid :
    Json.spell "\x7b\"a.b\": true, \"a\": \x7b\"c\": false\x7d\x7d" = .ok (.obj overlaidFields) ∧
      Clear (.obj overlaidFields) ∧ ["a", "b"] ∈ Setting.leafWays (.obj overlaidFields) ∧
      ∃ m, read "\x7b\"a.b\": true, \"a\": \x7b\"c\": false\x7d\x7d" = .ok m ∧ at? ["a", "b"] m.data = none ∧
        ¬ Kept (.obj overlaidFields) m.data [] := by
  have hspell : Json.spell "\x7b\"a.b\": true, \"a\": \x7b\"c\": false\x7d\x7d" = .ok (.obj overlaidFields) :=
    eq_ok_of_toOption (by decide +kernel)
  have hexpand : Setting.expand (.obj overlaidFields) = .ok (.obj [("a", .obj [("c", .bool false)])]) := by cbv
  have hway : ["a", "b"] ∈ Setting.leafWays (.obj overlaidFields) := by
    rw [leafWays_overlaidFields]
    decide
  refine ⟨hspell, clear_overlaidFields, hway, ⟨.obj [("a", .obj [("c", .bool false)])]⟩, ?_, rfl,
    fun hkept => hkept.ne_none _ hway rfl⟩
  rw [read, Json.readWith_of_spell hspell]
  rw [Setting.expand] at hexpand
  rw [hexpand]
  rfl

end QmlScript.Manifest
