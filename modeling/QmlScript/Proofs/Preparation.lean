import QmlScript.Proofs.Work
import QmlScript.Registry.Bundle

/-!
# What preparing a component looks at

Preparing a component makes its identifiers known and sorts its methods. It looks only at the packages, to
find bases, and at the signals of bases, and changes nothing but the identifiers.
-/

namespace QmlScript.Registry

open List Table

variable {s r : Registry} {c : Component} {base : Option Component} {name : String} {names : List String}

/-! ## The registry stays as it is, apart from the identifiers -/

theorem run_find_quiet (current reference : String) (style : NameStyle) (r : Registry) :
    (run (find current reference false style) r).2 = r := by
  rw [run_find]
  split
  · rfl
  · split <;> rfl

theorem run_baseComponent (c : Component) (r : Registry) :
    run (baseComponent c) r = (match (run (find c.package c.base false {}) r).1 with
      | .error e => .error e
      | .ok base =>
        if base = root then .ok none
        else match r.components.get? base with
          | some b => .ok (some b)
          | none => .error (.missing base), r) := by
  have hfind := run_find_quiet c.package c.base {} r
  unfold baseComponent
  rw [run_bind]
  rcases hrun : run (find c.package c.base false {}) r with ⟨e | base, s⟩ <;> rw [hrun] at hfind
  · exact congrArg _ hfind
  · obtain rfl : s = r := hfind
    dsimp only
    split
    · rfl
    · rw [run_bind, run_component_eq]
      cases s.components.get? base <;> rfl

/-- From `s` to `r` only identifiers get known, and only the given ones. -/
structure Learns (ids : List String) (s r : Registry) : Prop where
  rest : r = { s with ids := r.ids }
  ordered : NameSet.Ordered s.ids → NameSet.Ordered r.ids
  old : ∀ id ∈ s.ids, id ∈ r.ids
  new : ∀ id ∈ r.ids, id ∈ s.ids ∨ id ∈ ids

theorem Learns.refl (s : Registry) : Learns [] s s := ⟨rfl, id, fun _ => id, fun _ => Or.inl⟩

theorem Learns.learn (ids : List String) (s : Registry) : Learns ids s { s with ids := ids.foldl NameSet.add s.ids } :=
  ⟨rfl, fun h => h.foldl_add ids, fun _ h => (NameSet.mem_foldl_add _ _ _).mpr (.inr h),
    fun _ h => ((NameSet.mem_foldl_add _ _ _).mp h).symm⟩

theorem Learns.trans {i j : List String} {t : Registry} (h₁ : Learns i s r) (h₂ : Learns j r t) :
    Learns (i ++ j) s t where
  rest := by rw [h₂.rest, h₁.rest]
  ordered h := h₂.ordered (h₁.ordered h)
  old id h := h₂.old id (h₁.old id h)
  new id h := by
    rcases h₂.new id h with h | h
    · exact (h₁.new id h).imp_right (mem_append_left _)
    · exact Or.inr (mem_append_right _ h)

theorem Learns.mono {i j : List String} (h : Learns i s r) (hij : i ⊆ j) : Learns j s r :=
  ⟨h.rest, h.ordered, h.old, fun id hid => (h.new id hid).imp_right fun hi => hij hi⟩

theorem ids_eq (c : Component) : c.ids = c.id.toList ++ Component.idsOfParts c.parts := by
  cases c
  rw [Component.ids]

/-- The registry that the parts of a component are prepared in. -/
abbrev withIds (c : Component) (r : Registry) : Registry := { r with ids := c.ids.foldl NameSet.add r.ids }

theorem prepareComponent_eq (c : Component) (r : Registry) :
    prepareComponent c r =
      match prepareParts c.parts (withIds c r) with
      | ((parts, some e), r) => (({ c with parts }, some e), r)
      | ((parts, none), r) =>
        match (run (baseComponent c) r).1 with
        | .error e => (({ c with parts, methods := {}, handlers := some {} }, some e), r)
        | .ok base =>
          (sortMethods { c with parts, methods := {}, handlers := some {} } base c.methods.entries, r) := by
  have hq : ∀ r, (run (baseComponent c) r).2 = r := fun r => by rw [run_baseComponent]
  cases c
  rw [prepareComponent.eq_1]
  dsimp only
  generalize prepareParts _ _ = prepared
  obtain ⟨⟨parts, _ | e⟩, s⟩ := prepared
  · have hs := hq s
    revert hs
    dsimp only
    generalize run (baseComponent _) s = outcome
    obtain ⟨_ | base, t⟩ := outcome <;> rintro rfl <;> rfl
  · rfl

mutual

/-- By induction: the identifiers are those of the parts and one more. -/
theorem prepareComponent_learns (c : Component) (r : Registry) :
    Learns c.ids (withIds c r) (prepareComponent c r).2 := by
  have hsub : Component.idsOfParts c.parts ⊆ c.ids := by
    rw [ids_eq]
    exact subset_append_right _ _
  have hparts := (prepareParts_learns c.parts (withIds c r)).mono hsub
  rw [prepareComponent_eq]
  split
  · rename_i heq
    rw [heq] at hparts
    exact hparts
  · rename_i heq
    rw [heq] at hparts
    split <;> exact hparts
termination_by sizeOf c
decreasing_by exact c.sizeOf_parts_lt

theorem prepareParts_learns (parts : List Component) (r : Registry) :
    Learns (Component.idsOfParts parts) r (prepareParts parts r).2 := by
  cases parts with
  | nil =>
    rw [prepareParts, Component.idsOfParts]
    exact Learns.refl r
  | cons part parts =>
    have hpart : Learns part.ids r (prepareComponent part r).2 :=
      ((Learns.learn part.ids r).trans (prepareComponent_learns part r)).mono (by simp)
    rw [prepareParts, Component.idsOfParts]
    split
    · rename_i heq
      rw [heq] at hpart
      exact hpart.mono (subset_append_left _ _)
    · rename_i part' s heq
      rw [heq] at hpart
      exact hpart.trans (prepareParts_learns parts s)
termination_by sizeOf parts

end

theorem mem_ids_prepareComponent (c : Component) (r : Registry) (id : String) :
    id ∈ (prepareComponent c r).2.ids ↔ id ∈ r.ids ∨ id ∈ c.ids := by
  have h := prepareComponent_learns c r
  constructor
  · intro hid
    rcases h.new id hid with hid | hid
    · exact ((NameSet.mem_foldl_add _ _ _).mp hid).symm
    · exact Or.inr hid
  · intro hid
    exact h.old id ((NameSet.mem_foldl_add _ _ _).mpr hid.symm)

theorem ordered_ids_prepareComponent (h : NameSet.Ordered r.ids) : NameSet.Ordered (prepareComponent c r).2.ids :=
  (prepareComponent_learns c r).ordered (h.foldl_add _)

theorem prepareComponent_registry (c : Component) (r : Registry) :
    (prepareComponent c r).2 = { r with ids := (prepareComponent c r).2.ids } := (prepareComponent_learns c r).rest

/-! ## What the result depends on -/

/-- Registries with the same packages and the same signals of components. -/
structure SignalsAlike (r s : Registry) : Prop where
  candidates : ∀ wanted name, (r.candidates wanted name).Perm (s.candidates wanted name)
  signals : ∀ name, (r.components.get? name).map Component.signals =
    (s.components.get? name).map Component.signals

theorem SignalsAlike.refl (r : Registry) : SignalsAlike r r := ⟨fun _ _ => .refl _, fun _ => rfl⟩

theorem SignalsAlike.symm (h : SignalsAlike r s) : SignalsAlike s r :=
  ⟨fun wanted name => (h.candidates wanted name).symm, fun name => (h.signals name).symm⟩

theorem SignalsAlike.trans {t : Registry} (h₁ : SignalsAlike r s) (h₂ : SignalsAlike s t) : SignalsAlike r t :=
  ⟨fun wanted name => (h₁.candidates wanted name).trans (h₂.candidates wanted name),
    fun name => (h₁.signals name).trans (h₂.signals name)⟩

theorem SignalsAlike.ids (h : SignalsAlike r s) (i j : NameSet) :
    SignalsAlike { r with ids := i } { s with ids := j } := ⟨h.candidates, h.signals⟩

theorem Learns.signalsAlike {ids : List String} (h : Learns ids s r) : SignalsAlike s r := by
  rw [h.rest]
  exact ⟨fun _ _ => .refl _, fun _ => rfl⟩

theorem prepareComponent_signalsAlike (c : Component) (r : Registry) : SignalsAlike r (prepareComponent c r).2 :=
  ((SignalsAlike.refl r).ids r.ids _).trans (prepareComponent_learns c r).signalsAlike

/-- Two answers for a base: both refuse, or the signals are the same. -/
inductive BasesAlike : Except Error (Option Component) → Except Error (Option Component) → Prop
  | refused (e f : Error) : BasesAlike (.error e) (.error f)
  | root : BasesAlike (.ok none) (.ok none)
  | found {b d : Component} (h : b.signals = d.signals) : BasesAlike (.ok (some b)) (.ok (some d))

theorem run_find_quiet_alike (h : SignalsAlike r s) (current reference : String) :
    (∃ e f, run (find current reference false {}) r = (.error e, r) ∧
      run (find current reference false {}) s = (.error f, s)) ∨
    ∃ name, run (find current reference false {}) r = (.ok name, r) ∧
      run (find current reference false {}) s = (.ok name, s) := by
  rw [run_find, run_find]
  split
  · exact .inr ⟨_, rfl, rfl⟩
  · rcases meant_cases h.candidates current reference with ⟨e, f, hr, hs⟩ | ⟨package, hr, hs⟩
    · rw [hr, hs]
      exact .inl ⟨e, f, rfl, rfl⟩
    · rw [hr, hs]
      exact .inr ⟨_, rfl, rfl⟩

theorem baseComponent_alike (h : SignalsAlike r s) (c : Component) :
    BasesAlike (run (baseComponent c) r).1 (run (baseComponent c) s).1 := by
  rw [run_baseComponent, run_baseComponent]
  rcases run_find_quiet_alike h c.package c.base with ⟨e, f, hr, hs⟩ | ⟨name, hr, hs⟩
  · rw [hr, hs]
    exact .refused e f
  · rw [hr, hs]
    dsimp only
    split
    · exact .root
    · have hsignals := h.signals name
      cases hb : r.components.get? name with
      | none =>
        rw [hb] at hsignals
        rw [Option.map_eq_none_iff.mp hsignals.symm]
        exact .refused _ _
      | some b =>
        rw [hb] at hsignals
        obtain ⟨d, hd, heq⟩ := Option.map_eq_some_iff.mp hsignals.symm
        rw [hd]
        exact .found heq.symm

theorem sortMethods_alike {base' : Option Component} (h : signalsOf base = signalsOf base') (c : Component)
    (entries : List (MethodKey × MethodEntry)) :
    sortMethods c base entries = sortMethods c base' entries := by
  have hkind : handlerKind base = handlerKind base' := by
    funext name
    simp only [handlerKind, h]
  have hone : ∀ c key entry, sortMethod c base key entry = sortMethod c base' key entry := by
    intro c key entry
    cases entry with
    | prepared method => rfl
    | declared method => simp only [sortMethod, addHandler, hkind]
  induction entries generalizing c with
  | nil => rfl
  | cons entry entries ih =>
    obtain ⟨key, method⟩ := entry
    rw [sortMethods, sortMethods, hone]
    cases sortMethod c base' key method with
    | error e => rfl
    | ok c => exact ih c

/-- Two preparations made the same, and both or none refuse something. -/
def SameResult {α : Type} (x y : α × Option Error) : Prop := x.1 = y.1 ∧ (x.2 = none ↔ y.2 = none)

theorem SameResult.refl {α : Type} (x : α × Option Error) : SameResult x x := ⟨rfl, Iff.rfl⟩

mutual

/-- By induction: the registry of the parts differs by identifiers only. -/
theorem prepareComponent_alike {r s : Registry} (h : SignalsAlike r s) (c : Component) :
    SameResult (prepareComponent c r).1 (prepareComponent c s).1 := by
  rw [prepareComponent_eq, prepareComponent_eq]
  have hids := h.ids (c.ids.foldl NameSet.add r.ids) (c.ids.foldl NameSet.add s.ids)
  have hparts := prepareParts_alike hids c.parts
  have hr := (prepareParts_learns c.parts (withIds c r)).signalsAlike
  have hs := (prepareParts_learns c.parts (withIds c s)).signalsAlike
  rcases hpr : prepareParts c.parts (withIds c r) with ⟨⟨parts, e⟩, r'⟩
  rcases hps : prepareParts c.parts (withIds c s) with ⟨⟨parts', f⟩, s'⟩
  rw [hpr, hps] at hparts
  rw [hpr] at hr
  rw [hps] at hs
  obtain ⟨hp, hnone⟩ := hparts
  obtain rfl : parts = parts' := hp
  have halike : SignalsAlike r' s' := (hr.symm.trans hids).trans hs
  cases e with
  | some e =>
    cases f with
    | some f => exact ⟨rfl, by simp⟩
    | none => exact absurd (hnone.mpr rfl) (by simp)
  | none =>
    obtain rfl : f = none := hnone.mp rfl
    dsimp only
    have hbase := baseComponent_alike halike c
    rcases hbr : (run (baseComponent c) r').1 with e | b <;>
      rcases hbs : (run (baseComponent c) s').1 with f | d <;> rw [hbr, hbs] at hbase
    · exact ⟨rfl, by simp⟩
    · cases hbase
    · cases hbase
    · have hsignals : signalsOf b = signalsOf d := by
        cases hbase with
        | root => rfl
        | found heq => exact congrArg Except.ok heq
      dsimp only
      rw [sortMethods_alike hsignals]
      exact .refl _
termination_by sizeOf c
decreasing_by exact c.sizeOf_parts_lt

theorem prepareParts_alike {r s : Registry} (h : SignalsAlike r s) (parts : List Component) :
    SameResult (prepareParts parts r).1 (prepareParts parts s).1 := by
  cases parts with
  | nil =>
    rw [prepareParts, prepareParts]
    exact .refl _
  | cons part parts =>
    have hpart := prepareComponent_alike h part
    have hr := prepareComponent_signalsAlike part r
    have hs := prepareComponent_signalsAlike part s
    rw [prepareParts, prepareParts]
    rcases hpr : prepareComponent part r with ⟨⟨c, e⟩, r'⟩
    rcases hps : prepareComponent part s with ⟨⟨d, f⟩, s'⟩
    rw [hpr, hps] at hpart
    rw [hpr] at hr
    rw [hps] at hs
    obtain ⟨hc, hnone⟩ := hpart
    obtain rfl : c = d := hc
    cases e with
    | some e =>
      cases f with
      | some f => exact ⟨rfl, by simp⟩
      | none => exact absurd (hnone.mpr rfl) (by simp)
    | none =>
      obtain rfl : f = none := hnone.mp rfl
      have hrest := prepareParts_alike ((hr.symm.trans h).trans hs) parts
      dsimp only
      rcases hqr : prepareParts parts r' with ⟨⟨ps, e⟩, _⟩
      rcases hqs : prepareParts parts s' with ⟨⟨qs, f⟩, _⟩
      rw [hqr, hqs] at hrest
      obtain ⟨hps, hnone⟩ := hrest
      obtain rfl : ps = qs := hps
      exact ⟨rfl, hnone⟩
termination_by sizeOf parts

end

/-! ## What stays of a component -/

/-- The component without methods and handlers, which sorting keeps. -/
def withoutMethods (c : Component) : Component := { c with methods := {}, handlers := none }

theorem addHandler_withoutMethods {c' : Component} {path : String} {method : DeclaredMethod}
    (h : addHandler c base path name method = .ok c') :
    withoutMethods c' = withoutMethods c := by
  unfold addHandler at h
  dsimp only at h
  cases hk : handlerKind base name.toList with
  | error e => rw [hk] at h; cases h
  | ok kind =>
    rw [hk] at h
    cases kind <;> (dsimp only [bind, Except.bind] at h; split at h <;> cases h; rfl)

theorem sortMethod_withoutMethods {c' : Component} {key : MethodKey} {entry : MethodEntry}
    (h : sortMethod c base key entry = .ok c') :
    withoutMethods c' = withoutMethods c := by
  cases entry with
  | prepared method => simp [sortMethod] at h
  | declared method =>
    obtain ⟨path, name⟩ := key
    unfold sortMethod at h
    dsimp only at h
    split at h
    · exact addHandler_withoutMethods h
    · split at h
      · cases h
      · cases h
        rfl

theorem sortMethods_withoutMethods (c : Component) (base : Option Component)
    (entries : List (MethodKey × MethodEntry)) :
    withoutMethods (sortMethods c base entries).1 = withoutMethods c := by
  induction entries generalizing c with
  | nil => rfl
  | cons entry entries ih =>
    obtain ⟨key, method⟩ := entry
    rw [sortMethods]
    cases h : sortMethod c base key method with
    | error e => rfl
    | ok c' => exact (ih c').trans (sortMethod_withoutMethods h)

theorem prepareComponent_signals (c : Component) (r : Registry) : (prepareComponent c r).1.1.signals = c.signals := by
  rw [prepareComponent_eq]
  split
  · rfl
  · split
    · rfl
    · rename_i parts _ _ _ base _
      have hsignals := congrArg Component.signals (sortMethods_withoutMethods
        { c with parts, methods := {}, handlers := some {} } base c.methods.entries)
      exact hsignals

def prepared (r : Registry) (name : String) (c : Component) : Registry :=
  { (prepareComponent c r).2 with components := r.components.insert name (prepareComponent c r).1.1 }

/-- Preparing several succeeds if the first is not refused and preparing the others succeeds. -/
theorem run_prepareAll_cons (name : String) (names : List String) (r r' : Registry) :
    run (prepareAll (name :: names)) r = (.ok (), r') ↔
      ∃ c, r.components.get? name = some c ∧ (prepareComponent c r).1.2 = none ∧
        run (prepareAll names) (r.prepared name c) = (.ok (), r') := by
  rw [prepareAll, run_bind]
  unfold component
  rw [run_bind, run_get]
  dsimp only
  cases hc : r.components.get? name with
  | none => simp [run_throw]
  | some c =>
    simp only [run_pure, run_bind, run_get, run_set, Option.some.injEq, exists_eq_left']
    have hreg : (prepareComponent c r).2.components = r.components := by
      rw [prepareComponent_registry]
    rcases hp : prepareComponent c r with ⟨⟨c', e⟩, s⟩
    rw [hp] at hreg
    cases e with
    | some e => simp [run_throw]
    | none =>
      simp only [prepared, hp, ← hreg, true_and]

theorem run_prepareAll_rest {r' : Registry} (h : run (prepareAll names) r = (.ok (), r')) :
    r' = { r with components := r'.components, ids := r'.ids } := by
  induction names generalizing r with
  | nil =>
    obtain rfl : r = r' := (Prod.mk.inj h).2
    rfl
  | cons name names ih =>
    obtain ⟨c, _, _, hrest⟩ := (run_prepareAll_cons name names r r').mp h
    have hreg := prepareComponent_registry c r
    rw [ih hrest, prepared, hreg]

theorem prepared_signalsAlike (hc : r.components.get? name = some c) : SignalsAlike r (r.prepared name c) := by
  have hpackages : (r.prepared name c).packages = r.packages := by
    rw [prepared, prepareComponent_registry]
  refine ⟨fun wanted other => ?_, fun other => ?_⟩
  · simp only [candidates, hpackages]
    exact .refl _
  · simp only [prepared, get?_insert]
    by_cases heq : name = other
    · subst heq
      rw [if_pos rfl, hc, Option.map_some, Option.map_some, prepareComponent_signals]
    · rw [if_neg heq]

def Preparable (r : Registry) (name : String) : Prop :=
  ∃ c, r.components.get? name = some c ∧ (prepareComponent c r).1.2 = none

/-- The registry `P` is `r` with components prepared, each as if it were the first. -/
structure PreparedAll (names : List String) (r P : Registry) : Prop where
  rest : P = { r with components := P.components, ids := P.ids }
  keys : P.components.keys = r.components.keys
  get? : ∀ name, P.components.get? name =
    if name ∈ names then (r.components.get? name).map fun c => (prepareComponent c r).1.1
    else r.components.get? name
  ids : ∀ id, id ∈ P.ids ↔ id ∈ r.ids ∨ ∃ name ∈ names, ∃ c, r.components.get? name = some c ∧ id ∈ c.ids
  ordered : NameSet.Ordered r.ids → NameSet.Ordered P.ids

theorem PreparedAll.nil (r : Registry) : PreparedAll [] r r := ⟨rfl, rfl, fun _ => by simp, fun _ => by simp, id⟩

theorem PreparedAll.cons {P : Registry} (hn : name ∉ names) (hc : r.components.get? name = some c)
    (h : PreparedAll names (r.prepared name c) P) : PreparedAll (name :: names) r P := by
  have halike := prepared_signalsAlike hc
  have hget : ∀ other, (r.prepared name c).components.get? other =
      if name = other then some (prepareComponent c r).1.1 else r.components.get? other :=
    fun other => get?_insert _ _ _ _
  have hne : ∀ other ∈ names, name ≠ other := fun other ho heq => hn (heq ▸ ho)
  refine ⟨?_, ?_, fun other => ?_, fun id => ?_, fun ho => ?_⟩
  · rw [h.rest, prepared, prepareComponent_registry]
  · rw [h.keys]
    exact keys_insert_of_mem ((mem_keys_iff _ _).mpr ⟨c, hc⟩) _
  · rw [h.get? other, hget]
    by_cases heq : name = other
    · subst heq
      rw [if_neg hn, if_pos rfl, if_pos mem_cons_self, hc, Option.map_some]
    · by_cases hmem : other ∈ names
      · rw [if_pos hmem, if_neg heq, if_pos (mem_cons_of_mem _ hmem)]
        congr 1
        funext d
        exact (prepareComponent_alike halike.symm d).1
      · rw [if_neg hmem, if_neg heq, if_neg]
        rw [mem_cons, not_or]
        exact ⟨fun h => heq h.symm, hmem⟩
  · rw [h.ids id]
    have hids : id ∈ (r.prepared name c).ids ↔ id ∈ r.ids ∨ id ∈ c.ids := mem_ids_prepareComponent c r id
    have hothers : (∃ other ∈ names, ∃ d, (r.prepared name c).components.get? other = some d ∧ id ∈ d.ids) ↔
        ∃ other ∈ names, ∃ d, r.components.get? other = some d ∧ id ∈ d.ids := by
      refine exists_congr fun other => and_congr_right fun ho => ?_
      rw [hget, if_neg (hne other ho)]
    rw [hids, hothers, or_assoc]
    refine or_congr_right ?_
    simp [hc]
  · exact h.ordered (ordered_ids_prepareComponent ho)

theorem run_prepareAll_ok (hn : names.Nodup) {P : Registry} (h : run (prepareAll names) r = (.ok (), P)) :
    (∀ name ∈ names, Preparable r name) ∧ PreparedAll names r P := by
  induction names generalizing r with
  | nil =>
    obtain rfl : r = P := (Prod.mk.inj h).2
    exact ⟨by simp, .nil r⟩
  | cons name names ih =>
    rw [nodup_cons] at hn
    obtain ⟨c, hc, hnone, hrest⟩ := (run_prepareAll_cons name names r P).mp h
    obtain ⟨hall, hprep⟩ := ih hn.2 hrest
    refine ⟨fun other ho => ?_, hprep.cons hn.1 hc⟩
    rcases mem_cons.mp ho with rfl | ho
    · exact ⟨c, hc, hnone⟩
    · obtain ⟨d, hd, hdnone⟩ := hall other ho
      have hne : name ≠ other := fun heq => hn.1 (heq ▸ ho)
      rw [prepared, get?_insert, if_neg hne] at hd
      exact ⟨d, hd, (prepareComponent_alike (prepared_signalsAlike hc) d).2.mpr hdnone⟩

theorem run_prepareAll_of_preparable (hn : names.Nodup) (h : ∀ name ∈ names, Preparable r name) :
    ∃ P, run (prepareAll names) r = (.ok (), P) := by
  induction names generalizing r with
  | nil => exact ⟨r, rfl⟩
  | cons name names ih =>
    rw [nodup_cons] at hn
    obtain ⟨c, hc, hnone⟩ := h name mem_cons_self
    obtain ⟨P, hP⟩ := ih hn.2 (r := r.prepared name c) fun other ho => by
      obtain ⟨d, hd, hdnone⟩ := h other (mem_cons_of_mem _ ho)
      have hne : name ≠ other := fun heq => hn.1 (heq ▸ ho)
      refine ⟨d, ?_, (prepareComponent_alike (prepared_signalsAlike hc) d).2.mp hdnone⟩
      rw [prepared, get?_insert, if_neg hne, hd]
    exact ⟨P, (run_prepareAll_cons name names r P).mpr ⟨c, hc, hnone, hP⟩⟩

end QmlScript.Registry
