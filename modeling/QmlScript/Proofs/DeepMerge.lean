import QmlScript.Proofs.Expanded

/-!
# Merging is an overlay of leaves

A leaf is a value that is no object. A merge has the leaves of the source and those of the target that no leaf of
the source covers; it fails exactly where an object with fields meets a leaf. It is the same to merge the same
source again, and to merge two sources one after the other or as one.
-/

namespace QmlScript.Setting

open Json List Option

variable {target source merged v w : Json} {kept fields : List (String × Json)} {key : String} {way : List String}

def leaf? (way : List String) (data : Json) : Option Json :=
  match at? way data with
  | some (.obj _) => none
  | found => found

/-- A leaf of the settings stands in front of the end of a way. -/
def Covers (data : Json) (way : List String) : Prop := ∃ front, front <+: way ∧ front ≠ way ∧ leaf? front data ≠ none

/-- An object with fields is to be merged into a value that is no object. -/
def Clashes (target source : Json) : Prop :=
  ∃ way field fields v, at? way source = some (.obj (field :: fields)) ∧ at? way target = some v ∧
    ∀ inner, v ≠ .obj inner

theorem leaf?_nil (h : ∀ fields, v ≠ .obj fields) : leaf? [] v = some v := by
  cases v with
  | obj fields => exact absurd rfl (h fields)
  | _ => rfl

theorem leaf?_cons : leaf? (key :: way) (.obj fields) = (field? key fields).bind (leaf? way) := by
  rw [leaf?, at?]
  cases field? key fields <;> rfl

theorem leaf?_eq_none (h : at? way v = none) : leaf? way v = none := by rw [leaf?, h]

theorem not_covers_nil : ¬ Covers v [] := by
  rintro ⟨front, hfront, hne, -⟩
  exact hne (prefix_nil.mp hfront)

theorem covers_cons : Covers (.obj fields) (key :: way) ↔ ∃ v, field? key fields = some v ∧ Covers v way := by
  constructor
  · rintro ⟨front, hfront, hne, hleaf⟩
    cases front with
    | nil => exact absurd rfl hleaf
    | cons key' front =>
      obtain ⟨rfl, hrest⟩ := cons_prefix_cons.mp hfront
      rw [leaf?_cons] at hleaf
      cases hv : field? key' fields with
      | none => rw [hv] at hleaf; exact absurd rfl hleaf
      | some v =>
        rw [hv] at hleaf
        exact ⟨v, rfl, front, hrest, fun heq => hne (heq ▸ rfl), hleaf⟩
  · rintro ⟨v, hv, front, hfront, hne, hleaf⟩
    refine ⟨key :: front, cons_prefix_cons.mpr ⟨rfl, hfront⟩, fun heq => hne (List.cons.inj heq).2, ?_⟩
    rw [leaf?_cons, hv]
    exact hleaf

theorem covers_value (h : ∀ fields, v ≠ .obj fields) (hway : way ≠ []) : Covers v way :=
  ⟨[], nil_prefix, hway.symm, by rw [leaf?_nil h]; exact some_ne_none v⟩

/-! ## The leaves of a merge -/

/-- Induction on expanded fields, with objects among them. -/
@[elab_as_elim]
theorem Expanded.inductFields {motive : ∀ fields, Expanded (.obj fields) → Prop}
    (step : ∀ fields (h : Expanded (.obj fields)),
      (∀ key new (hnew : field? key fields = some (.obj new)), motive new (h.of_field? hnew)) → motive fields h)
    (fields : List (String × Json)) (h : Expanded (.obj fields)) : motive fields h := by
  suffices hall : ∀ v, Expanded v → ∀ fields (hv : Expanded (.obj fields)), v = .obj fields → motive fields hv from
    hall _ h fields h rfl
  intro v hv
  induction hv with
  | value hne => exact fun fields _ heq => absurd heq (hne fields)
  | obj keys undotted inside ih =>
    rintro _ hfields ⟨⟩
    exact step _ hfields fun key new hnew => ih _ (mem_of_field? hnew) new (hfields.of_field? hnew) rfl

/-- The leaves and the ways of a merge, by induction on the way: inside an object is merged into what the target has
there. -/
theorem leaf?_merge (hsource : Expanded (.obj fields)) (h : merge target (.obj fields) = .ok merged)
    (way : List String) :
    (∀ x, leaf? way merged = some x ↔ leaf? way (.obj fields) = some x ∨
      leaf? way (.obj fields) = none ∧ ¬ Covers (.obj fields) way ∧ leaf? way target = some x) ∧
    (at? way merged ≠ none ↔ at? way (.obj fields) ≠ none ∨
      ¬ Covers (.obj fields) way ∧ at? way target ≠ none) := by
  induction way generalizing target fields merged with
  | nil =>
    have hleaf : leaf? [] merged = leaf? [] target := by
      obtain ⟨kept, all, rfl, rfl, -⟩ | ⟨-, -, rfl⟩ := merge_cases hsource h <;> rfl
    refine ⟨fun x => ?_, iff_of_true (some_ne_none _) (.inl (some_ne_none _))⟩
    rw [hleaf]
    exact ⟨fun hx => .inr ⟨rfl, not_covers_nil, hx⟩, fun hx => hx.elim nofun fun hx => hx.2.2⟩
  | cons key way ih =>
    obtain ⟨kept, all, rfl, rfl, hall⟩ | ⟨-, rfl, rfl⟩ := merge_cases hsource h
    · have hover := overlaid_of_mergeAll hsource.keys hall
      rw [covers_cons, leaf?_cons, leaf?_cons, leaf?_cons, at?, at?, at?]
      cases hv : field? key fields with
      | none =>
        rw [hover.untouched key hv]
        simp
      | some v =>
        obtain ⟨inner, hinner, hfield⟩ := hover.touched key v hv
        have hcovers : (∃ v', some v = some v' ∧ Covers v' way) ↔ Covers v way := by simp
        rw [hfield, hcovers]
        dsimp only [bind_some]
        obtain ⟨new, rfl, hinner⟩ | ⟨hne, rfl⟩ := mergeValue_cases hinner
        · obtain ⟨hleaf, hat⟩ := ih (hsource.of_field? hv) hinner
          cases hold : field? key kept with
          | some old =>
            rw [hold] at hleaf hat
            exact ⟨hleaf, hat⟩
          | none =>
            rw [hold] at hleaf hat
            have hnone : leaf? way ((none : Option Json).getD (.obj [])) = none := by cases way <;> rfl
            refine ⟨fun x => by rw [hleaf x, hnone]; simp, hat.trans ?_⟩
            cases way with
            | nil => simp [at?]
            | cons next way => simp [at?, field?]
        · cases way with
          | nil => simp [leaf?_nil hne, at?]
          | cons next way =>
            have hnone := at?_value hne (cons_ne_nil next way)
            simp [hnone, leaf?_eq_none hnone, covers_value hne (cons_ne_nil next way)]
    · rw [covers_cons]
      simp [leaf?, at?, field?]

/-! ## When a merge fails -/

theorem exists_mergeAll_iff (hkeys : (fields.map Prod.fst).Nodup) : (∃ all, mergeAll kept fields = .ok all) ↔
    ∀ key v, field? key fields = some v → ∃ inner, mergeValue (field? key kept) v = .ok inner := by
  constructor
  · rintro ⟨all, hall⟩ key v hv
    obtain ⟨inner, hinner, -⟩ := (overlaid_of_mergeAll hkeys hall).touched key v hv
    exact ⟨inner, hinner⟩
  · intro h
    induction fields generalizing kept with
    | nil => exact ⟨kept, rfl⟩
    | cons field fields ih =>
      obtain ⟨name, value⟩ := field
      rw [map_cons, nodup_cons] at hkeys
      obtain ⟨inner, hinner⟩ := h name value (if_pos rfl)
      rw [mergeAll_cons, hinner]
      refine ih hkeys.2 fun key v hv => ?_
      have hne : name ≠ key := by
        rintro rfl
        rw [field?_eq_none hkeys.1] at hv
        cases hv
      rw [field?_setField, if_neg hne]
      exact h key v ((if_neg hne).trans hv)

theorem clashes_obj : Clashes (.obj kept) (.obj fields) ↔
    ∃ key new, field? key fields = some (.obj new) ∧ Clashes ((field? key kept).getD (.obj [])) (.obj new) := by
  constructor
  · rintro ⟨way, field, rest, x, hsource, htarget, hx⟩
    cases way with
    | nil => exact absurd (some.inj htarget).symm (hx kept)
    | cons key way =>
      obtain ⟨v, hv, hsource⟩ := bind_eq_some_iff.mp hsource
      obtain ⟨old, hold, htarget⟩ := bind_eq_some_iff.mp htarget
      obtain ⟨new, rfl⟩ : ∃ new, v = .obj new := by
        by_contra hobj
        cases way with
        | nil => exact hobj ⟨_, some.inj hsource⟩
        | cons next way =>
          rw [at?_value (not_exists.mp hobj) (cons_ne_nil next way)] at hsource
          cases hsource
      exact ⟨key, new, hv, way, field, rest, x, hsource, by rw [hold]; exact htarget, hx⟩
  · rintro ⟨key, new, hv, way, field, rest, x, hsource, htarget, hx⟩
    refine ⟨key :: way, field, rest, x, ?_, ?_, hx⟩
    · rw [at?, hv]
      exact hsource
    · cases hold : field? key kept with
      | some old =>
        rw [hold] at htarget
        rw [at?, hold]
        exact htarget
      | none =>
        rw [hold] at htarget
        cases way with
        | nil => exact absurd (some.inj htarget).symm (hx [])
        | cons next way => cases htarget

theorem not_exists_merge_iff (hsource : Expanded (.obj fields)) :
    (¬ ∃ merged, merge target (.obj fields) = .ok merged) ↔ Clashes target (.obj fields) := by
  induction fields, hsource using Expanded.inductFields generalizing target with
  | step fields hsource ih =>
    by_cases htarget : ∃ kept, target = .obj kept
    · obtain ⟨kept, rfl⟩ := htarget
      have hall : (∃ merged, merge (.obj kept) (.obj fields) = .ok merged) ↔ ∃ all, mergeAll kept fields = .ok all := by
        rw [merge_obj hsource]
        cases mergeAll kept fields <;> simp [Except.map]
      rw [hall, exists_mergeAll_iff hsource.keys, clashes_obj]
      simp only [not_forall, exists_prop]
      refine exists_congr fun key => ⟨?_, ?_⟩
      · rintro ⟨v, hv, hfails⟩
        obtain ⟨new, rfl⟩ : ∃ new, v = .obj new := by
          by_contra hvalue
          exact hfails ⟨v, mergeValue_value (not_exists.mp hvalue)⟩
        exact ⟨new, hv, (ih key new hv).mp hfails⟩
      · rintro ⟨new, hv, hclash⟩
        exact ⟨.obj new, hv, (ih key new hv).mpr hclash⟩
    · cases fields with
      | nil =>
        refine iff_of_false (fun h => h ⟨target, rfl⟩) ?_
        rintro ⟨way, field, rest, x, hway, -⟩
        cases way <;> cases hway
      | cons field fields =>
        refine iff_of_true ?_ ⟨[], field, fields, target, rfl, rfl, not_exists.mp htarget⟩
        rintro ⟨merged, h⟩
        obtain ⟨kept, -, rfl, -⟩ | ⟨-, ⟨⟩, -⟩ := merge_cases hsource h
        exact htarget ⟨kept, rfl⟩

theorem field?_of_mem (hkeys : (fields.map Prod.fst).Nodup) {field : String × Json} (h : field ∈ fields) :
    field? field.1 fields = some field.2 := by
  induction fields with
  | nil => cases h
  | cons first fields ih =>
    rw [map_cons, nodup_cons] at hkeys
    rw [field?]
    rcases mem_cons.mp h with rfl | h
    · exact if_pos rfl
    · have hne : first.1 ≠ field.1 := fun heq => hkeys.1 (heq ▸ mem_map_of_mem h)
      rw [if_neg hne, ih hkeys.2 h]

theorem setField_self (h : field? key fields = some v) : Json.setField key v fields = fields := by
  induction fields with
  | nil => cases h
  | cons field fields ih =>
    obtain ⟨name, value⟩ := field
    rw [field?] at h
    rw [Json.setField]
    split
    · rename_i heq
      rw [if_pos heq] at h
      rw [some.inj h]
    · rename_i hne
      rw [if_neg hne] at h
      rw [ih h]

theorem mergeAll_fixed (h : ∀ field ∈ fields, ∃ inner, field? field.1 kept = some inner ∧
    mergeValue (some inner) field.2 = .ok inner) : mergeAll kept fields = .ok kept := by
  induction fields with
  | nil => rfl
  | cons field fields ih =>
    obtain ⟨⟨inner, hfield, hinner⟩, hfields⟩ := forall_mem_cons.mp h
    rw [mergeAll_cons, hfield, hinner]
    exact (congrArg (mergeAll · fields) (setField_self hfield)).trans (ih hfields)

theorem merge_again (hsource : Expanded (.obj fields)) (h : merge target (.obj fields) = .ok merged) :
    merge merged (.obj fields) = .ok merged := by
  induction fields, hsource using Expanded.inductFields generalizing target merged with
  | step fields hsource ih =>
    obtain ⟨kept, all, rfl, rfl, hall⟩ | ⟨-, rfl, rfl⟩ := merge_cases hsource h
    · have hfixed : mergeAll all fields = .ok all := by
        refine mergeAll_fixed fun field hfield => ?_
        have hv := field?_of_mem hsource.keys hfield
        obtain ⟨inner, hinner, hkey⟩ := (overlaid_of_mergeAll hsource.keys hall).touched _ _ hv
        refine ⟨inner, hkey, ?_⟩
        obtain ⟨new, hnew, hinner⟩ | ⟨hne, rfl⟩ := mergeValue_cases hinner
        · rw [hnew] at hv ⊢
          exact ih field.1 new hv hinner
        · exact mergeValue_value hne
      rw [merge_obj hsource, hfixed]
      rfl
    · exact h

/-- An object that is merged into nothing is left as it is. -/
theorem mergeValue_none (h : Expanded v) : mergeValue none v = .ok v := by
  induction h with
  | value hne => exact mergeValue_value hne
  | @obj fields keys undotted inside ih =>
    rw [mergeValue, getD_none, merge_obj (.obj keys undotted inside)]
    suffices hall : mergeAll [] fields = .ok fields by rw [hall]; rfl
    clear undotted inside
    induction fields using List.reverseRecOn with
    | nil => rfl
    | append_singleton fields field ihFields =>
      rw [map_append, nodup_append] at keys
      have hnew : field.1 ∉ fields.map Prod.fst := fun hname => keys.2.2 _ hname _ (by simp) rfl
      rw [forall_mem_append, forall_mem_singleton] at ih
      have hfields := ihFields keys.1 ih.1
      rw [mergeAll] at hfields
      rw [mergeAll, foldlM_append, hfields]
      show (mergeValue (field? field.1 fields) field.2 >>= fun inner =>
        pure (setField field.1 inner fields)) >>= pure = _
      rw [field?_eq_none hnew, ih.2]
      exact congrArg Except.ok (setField_of_not_mem hnew)

variable {own all : List (String × Json)} {x u : Json}

theorem setField_comm {name : String} (hne : key ≠ name) (h : field? key own = some x) :
    setField name v (setField key u own) = setField key u (setField name v own) := by
  induction own with
  | nil => cases h
  | cons field own ih =>
    obtain ⟨k, y⟩ := field
    rw [field?] at h
    by_cases hkey : k = key
    · subst hkey
      simp [setField, hne]
    · rw [if_neg hkey] at h
      by_cases hname : k = name <;> simp [setField, hkey, hname, Ne.symm hne, ih h]

/-- A field that others do not touch may be set before or after them. -/
theorem mergeAll_setField (hown : field? key own = some x) (hkey : key ∉ fields.map Prod.fst)
    (h : mergeAll own fields = .ok all) (u : Json) :
    mergeAll (setField key u own) fields = .ok (setField key u all) := by
  induction fields generalizing own with
  | nil =>
    cases h
    rfl
  | cons field fields ih =>
    obtain ⟨name, value⟩ := field
    rw [map_cons, mem_cons, not_or] at hkey
    rw [mergeAll_cons] at h ⊢
    obtain ⟨inner, hinner, h⟩ := of_bind_eq_ok h
    have hnext : field? key (setField name inner own) = some x := by
      rw [field?_setField, if_neg (Ne.symm hkey.1), hown]
    rw [field?_setField, if_neg hkey.1, hinner, ← ih hnext hkey.2 h]
    exact congrArg (mergeAll · fields) (setField_comm hkey.1 hown)

/-- A value merged after another may be merged into that one first. -/
def Joins (w : Json) : Prop := ∀ old v x u, Expanded v → mergeValue old v = .ok x → mergeValue (some x) w = .ok u →
  ∃ vw, Expanded vw ∧ mergeValue (some v) w = .ok vw ∧ mergeValue old vw = .ok u

/-- It is the same to merge a value last or into the field with its key. By induction on the fields. -/
theorem Joins.mergeAll (hw : Expanded w) (hjoins : Joins w) (hkeys : (fields.map Prod.fst).Nodup)
    (hfields : ∀ field ∈ fields, Expanded field.2) (h : mergeAll own fields = .ok all)
    (hu : mergeValue (field? key all) w = .ok u) :
    ∃ vw, Expanded vw ∧ mergeValue (field? key fields) w = .ok vw ∧
      Setting.mergeAll own (setField key vw fields) = .ok (setField key u all) := by
  induction fields generalizing own with
  | nil =>
    cases h
    refine ⟨w, hw, mergeValue_none hw, ?_⟩
    rw [setField, mergeAll_cons, hu]
    rfl
  | cons field fields ih =>
    obtain ⟨name, value⟩ := field
    rw [map_cons, nodup_cons] at hkeys
    obtain ⟨hvalue, hfields⟩ := forall_mem_cons.mp hfields
    rw [mergeAll_cons] at h
    obtain ⟨inner, hinner, h⟩ := of_bind_eq_ok h
    by_cases hname : name = key
    · subst hname
      have hfirst : field? name (setField name inner own) = some inner := by rw [field?_setField, if_pos rfl]
      rw [(overlaid_of_mergeAll hkeys.2 h).untouched name (field?_eq_none hkeys.1), hfirst] at hu
      obtain ⟨vw, hexpanded, hvw, hold⟩ := hjoins _ value inner u hvalue hinner hu
      have hafter := mergeAll_setField hfirst hkeys.1 h u
      rw [setField_setField] at hafter
      refine ⟨vw, hexpanded, by rwa [field?, if_pos rfl], ?_⟩
      rw [setField, if_pos rfl, mergeAll_cons, hold]
      exact hafter
    · obtain ⟨vw, hexpanded, hvw, hafter⟩ := ih hkeys.2 hfields h
      refine ⟨vw, hexpanded, by rwa [field?, if_neg hname], ?_⟩
      rw [setField, if_neg hname, mergeAll_cons, hinner]
      exact hafter

theorem mergeAll_mergeAll {more last : List (String × Json)} (hfields : Expanded (.obj fields))
    (hmore : ∀ field ∈ more, '.' ∉ field.1.toList ∧ Expanded field.2 ∧ Joins field.2)
    (h : mergeAll own fields = .ok all) (hlast : mergeAll all more = .ok last) :
    ∃ both, Expanded (.obj both) ∧ mergeAll fields more = .ok both ∧ mergeAll own both = .ok last := by
  induction more generalizing fields all with
  | nil =>
    cases hlast
    exact ⟨fields, hfields, rfl, h⟩
  | cons field more ih =>
    obtain ⟨key, w⟩ := field
    obtain ⟨⟨hkey, hw, hjoins⟩, hmore⟩ := forall_mem_cons.mp hmore
    rw [mergeAll_cons] at hlast
    obtain ⟨u, hu, hlast⟩ := of_bind_eq_ok hlast
    obtain ⟨vw, hexpanded, hvw, hafter⟩ := hjoins.mergeAll hw hfields.keys (fun _ => hfields.of_mem) h hu
    obtain ⟨both, hboth, hall, hown⟩ := ih (hfields.setField hkey hexpanded) hmore hafter hlast
    refine ⟨both, hboth, ?_, hown⟩
    rw [mergeAll_cons, hvw]
    exact hall

/-- Merging two sources one after the other is merging one into the other first. -/
theorem merge_merge {more : List (String × Json)} {last : Json} (hsource : Expanded (.obj fields))
    (hmore : Expanded (.obj more)) (h : merge target (.obj fields) = .ok merged)
    (hlast : merge merged (.obj more) = .ok last) :
    ∃ both, Expanded (.obj both) ∧ merge (.obj fields) (.obj more) = .ok (.obj both) ∧
      merge target (.obj both) = .ok last := by
  induction more, hmore using Expanded.inductFields generalizing target fields merged last with
  | step more hmore ih =>
    obtain ⟨own, all, rfl, rfl, hall⟩ | ⟨hne, rfl, rfl⟩ := merge_cases hsource h
    · obtain ⟨_, last, ⟨⟩, rfl, hend⟩ | ⟨hne, -⟩ := merge_cases hmore hlast
      swap
      · exact absurd rfl (hne all)
      have hjoins : ∀ field ∈ more, Joins field.2 := by
        intro field hfield old v x u hv hx hu
        have hkey := field?_of_mem hmore.keys hfield
        obtain ⟨new', hw, hu'⟩ | ⟨hne, rfl⟩ := mergeValue_cases hu
        · rw [hw] at hkey ⊢
          obtain ⟨new, rfl, hx⟩ | ⟨hne, rfl⟩ := mergeValue_cases hx
          · obtain ⟨both, hboth, hnew, hold⟩ := ih field.1 new' hkey hv hx hu'
            exact ⟨.obj both, hboth, hnew, hold⟩
          · obtain ⟨own, -, rfl, -⟩ | ⟨-, -, rfl⟩ := merge_cases (hmore.of_field? hkey) hu'
            · exact absurd rfl (hne own)
            · exact ⟨_, hv, hu', hx⟩
        · exact ⟨_, hmore.of_mem hfield, mergeValue_value hne, mergeValue_value hne⟩
      obtain ⟨both, hboth, hfields, hown⟩ := mergeAll_mergeAll hsource
        (fun field hfield => ⟨hmore.undotted hfield, hmore.of_mem hfield, hjoins field hfield⟩) hall hend
      refine ⟨both, hboth, ?_, ?_⟩
      · rw [merge_obj hmore, hfields]
        rfl
      · rw [merge_obj hboth, hown]
        rfl
    · obtain ⟨own, -, rfl, -⟩ | ⟨-, rfl, rfl⟩ := merge_cases hmore hlast
      · exact absurd rfl (hne own)
      · exact ⟨[], .empty, rfl, hlast⟩

/-- Of settings whose keys have no dots, a merge has the leaves of the source, those of the target that none of
them covers, and nothing else. It fails exactly where an object with fields meets a value that is no object. A
second merge changes nothing, and sources that are merged one after the other can be merged as one. -/
theorem merge_rightBiased (hsource : Expanded (.obj fields)) :
    ((∃ e, merge target (.obj fields) = .error e) ↔ Clashes target (.obj fields)) ∧
      ∀ merged, merge target (.obj fields) = .ok merged →
        (∀ way x, leaf? way merged = some x ↔ leaf? way (.obj fields) = some x ∨
          leaf? way (.obj fields) = none ∧ ¬ Covers (.obj fields) way ∧ leaf? way target = some x) ∧
        (∀ way, at? way merged ≠ none ↔ at? way (.obj fields) ≠ none ∨
          ¬ Covers (.obj fields) way ∧ at? way target ≠ none) ∧
        merge merged (.obj fields) = .ok merged ∧
        ∀ more last, Expanded (.obj more) → merge merged (.obj more) = .ok last →
          ∃ both, merge (.obj fields) (.obj more) = .ok both ∧ merge target both = .ok last := by
  refine ⟨?_, fun merged h => ⟨fun way => (leaf?_merge hsource h way).1, fun way => (leaf?_merge hsource h way).2,
    merge_again hsource h, fun more last hmore hlast => ?_⟩⟩
  · rw [← not_exists_merge_iff hsource]
    cases merge target (.obj fields) <;> simp
  · obtain ⟨both, -, hboth, htarget⟩ := merge_merge hsource hmore h hlast
    exact ⟨.obj both, hboth, htarget⟩

/-- A section to be merged, and an empty one. -/
def laidFields : List (String × Json) := [("a", .obj [("y", .str "z")]), ("b", .obj [])]

theorem merge_rightBiased_sections : Expanded (.obj laidFields) ∧
    ∃ merged, merge (.obj [("a", .obj [("x", .null)]), ("b", .bool true)]) (.obj laidFields) = .ok merged ∧
      leaf? ["b"] merged = some (.bool true) ∧ leaf? ["a", "y"] merged = some (.str "z") ∧
      merge merged (.obj laidFields) = .ok merged := by
  have hlaid : Expanded (.obj laidFields) := by
    refine .obj (by decide) (by decide) ?_
    simp only [laidFields, forall_mem_cons, not_mem_nil, false_imp_iff, implies_true, and_true]
    exact ⟨.obj (by decide) (by decide) (by simpa using .value nofun), .empty⟩
  have hmerge : merge (.obj [("a", .obj [("x", .null)]), ("b", .bool true)]) (.obj laidFields) =
      .ok (.obj [("a", .obj [("x", .null), ("y", .str "z")]), ("b", .bool true)]) := by cbv
  obtain ⟨hleaf, -, hagain, -⟩ := (merge_rightBiased hlaid).2 _ hmerge
  exact ⟨hlaid, _, hmerge, rfl, (hleaf _ _).mpr (.inl rfl), hagain⟩

end QmlScript.Setting
