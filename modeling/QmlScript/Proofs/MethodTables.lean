import QmlScript.Proofs.Preparation
import QmlScript.Proofs.Results

/-!
# Where methods are put

A prepared component has its methods in one table and its handlers in three. Methods are put there one after
the other: `landing` says where, and with what arguments. Only a method called `__complete` can be overwritten,
by a handler of completion.
-/

namespace QmlScript.Registry

open List Table Text

/-- A table, with none for methods, and a key in it. -/
abbrev Place := Option HandlerKind × MethodKey

def entryMethod : MethodEntry → Method
  | .prepared method => method
  | .declared method => { args := method.args, code := method.code, async := method.async }

def entryAt? (c : Component) : Place → Option Method
  | (some kind, key) => (kind.table (c.handlers.getD {})).get? key
  | (none, key) => (c.methods.get? key).map entryMethod

/-- Where a declared method is put, and what is put there. -/
def landing (base : Option Component) (key : MethodKey) (m : DeclaredMethod) : Except Error (Place × Method) :=
  if m.event && isHandlerName key.2.toList then do
    let kind ← handlerKind base key.2.toList
    return ((some kind, key.1, String.ofList (kind.entryName (handledName key.2.toList))),
      { args := kind.args m.args, code := m.code, async := false })
  else return ((none, if key.2 = "onCompleted" then (key.1, "__complete") else key),
    { args := m.args, code := m.code, async := m.async })

variable {c c' d : Component} {base : Option Component} {key : MethodKey} {entry : MethodEntry} {m : DeclaredMethod}
  {place : Place} {made : Method} {r r' : Registry} {entries : List (MethodKey × MethodEntry)}

/-- One entry is put into the tables, in the place of what was there. -/
def Puts (c c' : Component) (place : Place) (made : Method) : Prop :=
  ∀ other, entryAt? c' other = if place = other then some made else entryAt? c other

theorem addHandler_ok {path name : String} (h : addHandler c base path name m = .ok c') :
    ∃ kind, handlerKind base name.toList = .ok kind ∧
      let place := (some kind, path, String.ofList (kind.entryName (handledName name.toList)))
      let made := { args := kind.args m.args, code := m.code, async := false }
      entryAt? c place = none ∧ Puts c c' place made := by
  obtain ⟨kind, hkind, h⟩ := of_bind_eq_ok h
  dsimp only at h
  split at h
  · cases h
  · next hfree =>
    cases h
    have hnone : (kind.table (c.handlers.getD {})).get?
        (path, String.ofList (kind.entryName (handledName name.toList))) = none := by
      simpa [Table.contains] using hfree
    refine ⟨kind, hkind, hnone, ?_⟩
    rintro ⟨_ | other, k⟩
    · simp [entryAt?]
    · cases kind <;> cases other <;> simp [entryAt?, HandlerKind.put, HandlerKind.table, get?_insert]

theorem sortMethod_ok (h : sortMethod c base key entry = .ok c') :
    ∃ m place made, entry = .declared m ∧ landing base key m = .ok (place, made) ∧
      (key.2 ≠ "onCompleted" → entryAt? c place = none) ∧ Puts c c' place made := by
  cases entry with
  | prepared method => cases h
  | declared m =>
    unfold sortMethod at h
    dsimp only at h
    split at h
    · next hhandler =>
      obtain ⟨kind, hkind, hfree, hputs⟩ := addHandler_ok h
      exact ⟨m, _, _, rfl, by rw [landing, if_pos hhandler, hkind]; rfl, fun _ => hfree, hputs⟩
    · next hhandler =>
      split at h
      · cases h
      · next hfree =>
        cases h
        refine ⟨m, _, _, rfl, by rw [landing, if_neg hhandler]; rfl, fun hname => ?_, ?_⟩
        · simpa [entryAt?, hname, Table.contains] using hfree
        · rintro ⟨_ | other, k⟩
          · generalize (if key.2 = "onCompleted" then (key.1, "__complete") else key) = own
            by_cases hk : own = k <;> simp [entryAt?, get?_insert, entryMethod, hk]
          · simp [entryAt?]

/-- Two methods meet in one place. -/
def IsDuplicate (e : Error) : Prop :=
  ∃ name, e = .duplicateMethod name ∨ e = .duplicateKeyHandler name ∨ e = .duplicateSignalHandler name

theorem sortMethod_error {e : Error} {landed : Place × Method} (h : sortMethod c base key (.declared m) = .error e)
    (hland : landing base key m = .ok landed) : IsDuplicate e := by
  unfold sortMethod at h
  unfold landing at hland
  dsimp only at h
  split at h
  · next hhandler =>
    rw [if_pos hhandler] at hland
    obtain ⟨kind, hkind, -⟩ := of_bind_eq_ok hland
    rw [addHandler, hkind] at h
    change (if _ then _ else _) = _ at h
    split at h
    · cases h
      cases kind
      · exact ⟨_, .inr (.inl rfl)⟩
      · exact ⟨_, .inr (.inr rfl)⟩
      · exact ⟨_, .inr (.inr rfl)⟩
    · cases h
  · split at h
    · exact ⟨_, .inl (Except.error.inj h).symm⟩
    · cases h

/-- A declared method, its place and what is put there. -/
structure Landing where
  key : MethodKey
  method : DeclaredMethod
  place : Place
  made : Method

/-- Methods put into the tables of `c` one after the other give `d`. -/
structure Lands (base : Option Component) (c d : Component) (landings : List Landing) : Prop where
  lands : ∀ l ∈ landings, landing base l.key l.method = .ok (l.place, l.made)
  free : ∀ l ∈ landings, l.key.2 ≠ "onCompleted" → entryAt? c l.place = none
  apart : landings.Pairwise fun l l' => l.place = l'.place → l'.key.2 = "onCompleted"
  entry : ∀ t : Table Place Method, (∀ place, entryAt? c place = t.get? place) → ∀ place, entryAt? d place =
    ((landings.map fun l => (l.place, l.made)).foldl (fun t (k, v) => t.insert k v) t).get? place

theorem exists_lands (h : sortMethods c base entries = (d, none)) :
    ∃ landings, entries = landings.map (fun l => (l.key, .declared l.method)) ∧ Lands base c d landings := by
  induction entries generalizing c with
  | nil =>
    obtain rfl : c = d := (Prod.mk.inj h).1
    exact ⟨[], rfl, by simp, by simp, .nil, fun t ht => ht⟩
  | cons entry entries ih =>
    obtain ⟨key, entry⟩ := entry
    rw [sortMethods] at h
    cases hone : sortMethod c base key entry with
    | error e => rw [hone] at h; cases h
    | ok c' =>
      rw [hone] at h
      obtain ⟨m, place, made, rfl, hland, hfree, hputs⟩ := sortMethod_ok hone
      obtain ⟨landings, rfl, hall⟩ := ih h
      have hmono : ∀ other, entryAt? c' other = none → entryAt? c other = none ∧ place ≠ other := by
        intro other hother
        rw [hputs] at hother
        split at hother
        · cases hother
        · next hne => exact ⟨hother, hne⟩
      refine ⟨⟨key, m, place, made⟩ :: landings, rfl, ?_, ?_, ?_, ?_⟩
      · simpa using ⟨hland, hall.lands⟩
      · simp only [forall_mem_cons]
        exact ⟨hfree, fun l hl hname => (hmono _ (hall.free l hl hname)).1⟩
      · refine .cons (fun l hl heq => ?_) hall.apart
        by_contra hname
        exact (hmono _ (hall.free l hl hname)).2 heq
      · exact fun t ht => hall.entry _ fun other => by rw [hputs, get?_insert, ht]

theorem sortMethods_error {e : Error} (h : sortMethods c base entries = (d, some e))
    (hlands : ∀ entry ∈ entries, ∃ m landed, entry.2 = .declared m ∧ landing base entry.1 m = .ok landed) :
    IsDuplicate e := by
  induction entries generalizing c with
  | nil => cases h
  | cons entry entries ih =>
    obtain ⟨key, entry⟩ := entry
    rw [forall_mem_cons] at hlands
    obtain ⟨⟨m, landed, rfl, hland⟩, hlands⟩ := hlands
    rw [sortMethods] at h
    cases hone : sortMethod c base key (.declared m) with
    | error e' =>
      rw [hone] at h
      obtain rfl := Option.some.inj (Prod.mk.inj h).2
      exact sortMethod_error hone hland
    | ok c' =>
      rw [hone] at h
      exact ih h hlands

theorem landing_cases (h : landing base key m = .ok (place, made)) : made.code = m.code ∧
    ((∃ kind, m.event = true ∧ isHandlerName key.2.toList = true ∧ handlerKind base key.2.toList = .ok kind ∧
      place = (some kind, key.1, String.ofList (kind.entryName (handledName key.2.toList))) ∧ made.async = false) ∨
    ¬ (m.event = true ∧ isHandlerName key.2.toList = true) ∧ made.async = m.async ∧
      place = (none, if key.2 = "onCompleted" then (key.1, "__complete") else key)) := by
  unfold landing at h
  split at h
  · next hhandler =>
    obtain ⟨kind, hkind, h⟩ := of_bind_eq_ok h
    obtain ⟨rfl, rfl⟩ := Prod.mk.inj (Except.ok.inj h)
    obtain ⟨hevent, hname⟩ := Bool.and_eq_true_iff.mp hhandler
    exact ⟨rfl, .inl ⟨kind, hevent, hname, hkind, rfl, rfl⟩⟩
  · next hhandler =>
    obtain ⟨rfl, rfl⟩ := Prod.mk.inj (Except.ok.inj h)
    exact ⟨rfl, .inr ⟨mt Bool.and_eq_true_iff.mpr hhandler, rfl, rfl⟩⟩

theorem landing_completion {path name : String} (hname : name = "__complete" ∨ name = "onCompleted")
    (h : landing base (path, name) m = .ok (place, made)) : place = (none, path, "__complete") := by
  have hhandler : isHandlerName name.toList = false := by
    rcases hname with rfl | rfl
    · decide
    · decide
  obtain ⟨kind, -, htrue, -⟩ | ⟨-, -, rfl⟩ := (landing_cases h).2
  · exact absurd htrue (by simp [hhandler])
  · rcases hname with rfl | rfl
    · rfl
    · rfl

/-- Methods share a place only if a handler of completion comes behind a method `__complete`. -/
theorem Lands.clash {landings : List Landing} (h : Lands base c d landings) (hkeys : (landings.map (·.key)).Nodup) :
    landings.Pairwise fun l l' => l.place = l'.place → l.key = (l'.key.1, "__complete") ∧ l'.key.2 = "onCompleted" := by
  refine (h.apart.and (pairwise_map.mp hkeys)).imp_of_mem ?_
  rintro l l' hl hl' ⟨hlast, hne⟩ hplace
  have hname := hlast hplace
  have hplace' := landing_completion (.inr hname) (h.lands l' hl')
  refine ⟨?_, hname⟩
  obtain ⟨kind, -, -, -, hkind, -⟩ | ⟨-, -, hown⟩ := (landing_cases (h.lands l hl)).2
  · rw [hplace, hplace'] at hkind
    cases hkind
  · rw [hplace, hplace'] at hown
    split at hown
    · next hcompleted =>
      refine absurd (Prod.ext ?_ (hcompleted.trans hname.symm)) hne
      exact (Prod.mk.inj (Prod.mk.inj hown).2).1.symm
    · exact (Prod.mk.inj hown).2.symm

theorem baseComponent_ids (c : Component) (r : Registry) (ids : NameSet) :
    (run (baseComponent c) { r with ids }).1 = (run (baseComponent c) r).1 := by
  have hfind : (run (find c.package c.base false {}) { r with ids }).1 =
      (run (find c.package c.base false {}) r).1 := by
    rw [run_find, run_find, show Registry.meant { r with ids } c.package c.base = r.meant c.package c.base from rfl]
    split
    · rfl
    · cases r.meant c.package c.base <;> rfl
  rw [run_baseComponent, run_baseComponent, hfind]

/-- Methods are sorted once parts are prepared and the base is found. -/
structure Sorted (c : Component) (r : Registry) (base : Option Component) : Prop where
  parts : (prepareParts c.parts { r with ids := c.ids.foldl NameSet.add r.ids }).1.2 = none
  base : (run (baseComponent c) r).1 = .ok base

theorem prepareComponent_cases (c : Component) (r : Registry) :
    (∃ base parts, Sorted c r base ∧ (prepareComponent c r).1 =
      sortMethods { c with parts, methods := {}, handlers := some {} } base c.methods.entries) ∨
    (prepareComponent c r).1.2 ≠ none ∧ ∀ base, ¬ Sorted c r base := by
  have hlearns := (prepareParts_learns c.parts (withIds c r)).rest
  rw [prepareComponent_eq]
  rcases hparts : prepareParts c.parts (withIds c r) with ⟨⟨parts, _ | e⟩, s⟩
  · rw [hparts] at hlearns
    have hbase : (run (baseComponent c) s).1 = (run (baseComponent c) r).1 := by
      rw [show s = _ from hlearns]
      exact baseComponent_ids c r s.ids
    dsimp only
    rcases hrun : (run (baseComponent c) s).1 with e | base
    · refine .inr ⟨nofun, fun base hsorted => ?_⟩
      rw [hbase, hsorted.base] at hrun
      cases hrun
    · exact .inl ⟨base, parts, ⟨by rw [hparts], hbase.symm.trans hrun⟩, rfl⟩
  · refine .inr ⟨nofun, fun base hsorted => ?_⟩
    have hnone := hsorted.parts
    rw [hparts] at hnone
    cases hnone

theorem exists_lands_of_prepared (h : prepareComponent c r = ((d, none), r')) :
    ∃ base landings start, (run (baseComponent c) r).1 = .ok base ∧
      c.methods.entries = landings.map (fun l => (l.key, .declared l.method)) ∧ Lands base start d landings ∧
      ∀ place, entryAt? d place = (Table.ofList (landings.map fun l => (l.place, l.made))).get? place := by
  rcases prepareComponent_cases c r with ⟨base, parts, hsorted, hsort⟩ | ⟨hfails, -⟩
  · rw [h] at hsort
    obtain ⟨landings, hentries, hlands⟩ := exists_lands hsort.symm
    refine ⟨base, landings, _, hsorted.base, hentries, hlands, hlands.entry {} ?_⟩
    rintro ⟨_ | kind, key⟩
    · rfl
    · cases kind <;> rfl
  · rw [h] at hfails
    exact absurd rfl hfails

theorem exists_entry_of_prepared (h : prepareComponent c r = ((d, none), r'))
    (hkeys : c.methods.keys.Nodup) (hm : c.methods.get? key = some (.declared m))
    (hlast : key.2 = "__complete" → (key.1, "onCompleted") ∉ c.methods.keys) :
    ∃ base place made, (run (baseComponent c) r).1 = .ok base ∧ landing base key m = .ok (place, made) ∧
      entryAt? d place = some made := by
  obtain ⟨base, landings, start, hbase, hentries, hlands, hentry⟩ := exists_lands_of_prepared h
  have hmap : c.methods.keys = landings.map (·.key) := by simp [Table.keys, hentries]
  have hmem := mem_entries_of_get? hm
  rw [hentries] at hmem
  obtain ⟨l, hl, heq⟩ := mem_map.mp hmem
  obtain ⟨rfl, hmethod⟩ := Prod.mk.inj heq
  obtain rfl := MethodEntry.declared.inj hmethod
  refine ⟨base, l.place, l.made, hbase, hlands.lands l hl, ?_⟩
  rw [hmap] at hkeys hlast
  obtain ⟨front, back, rfl⟩ := append_of_mem hl
  have hclash := (pairwise_cons.mp (pairwise_append.mp (hlands.clash hkeys)).2.1).1
  have hback : l.place ∉ (back.map fun l => (l.place, l.made)).map (·.1) := by
    rw [map_map]
    intro hplace
    obtain ⟨l', hl', hplace⟩ := mem_map.mp hplace
    obtain ⟨hkey, hname⟩ := hclash l' hl' hplace.symm
    refine hlast (by rw [hkey]) ?_
    rw [hkey, ← hname]
    exact mem_map_of_mem (mem_append_right _ (mem_cons_of_mem _ hl'))
  rw [hentry, Table.ofList, map_append, map_cons, foldl_append, foldl_cons,
    get?_foldl_insert _ _ hback, get?_insert, if_pos rfl]

/-! ## Entries of their own -/

/-- The entries of `d` are those of the methods of `c`, each with its code and in its own place. -/
def KeepsMethods (c d : Component) : Prop :=
  ∃ places : List Place, places.Nodup ∧ (∀ place, (entryAt? d place).isSome = true → place ∈ places) ∧
    List.Forall₂ (fun entry place => (entryAt? d place).map (·.code) = some (entryMethod entry.2).code)
      c.methods.entries places

theorem keepsMethods_of_prepared (h : prepareComponent c r = ((d, none), r')) (hkeys : c.methods.keys.Nodup) :
    KeepsMethods c d ↔ ∀ path, (path, "__complete") ∈ c.methods.keys → (path, "onCompleted") ∉ c.methods.keys := by
  obtain ⟨base, landings, start, -, hentries, hlands, hentry⟩ := exists_lands_of_prepared h
  have hmap : c.methods.keys = landings.map (·.key) := by simp [Table.keys, hentries]
  have hplace : ∀ place, (entryAt? d place).isSome = true → place ∈ landings.map (·.place) := by
    intro place hsome
    by_contra hnot
    rw [hentry, Table.ofList, get?_foldl_insert _ _ (by rwa [map_map])] at hsome
    cases hsome
  rw [hmap] at hkeys ⊢
  constructor
  · rintro ⟨places, hplaces, -, hall⟩ path hmethod hhandler
    have hsubset : places ⊆ landings.map (·.place) := by
      intro place hmem
      obtain ⟨i, hi, rfl⟩ := getElem_of_mem hmem
      have hcode := hall.get (hall.length_eq ▸ hi) hi
      exact hplace _ (by simpa using congrArg Option.isSome hcode)
    have hlength : (landings.map (·.place)).length ≤ places.length := by
      rw [← hall.length_eq, hentries, length_map, length_map]
    have hnodup := ((subperm_of_subset hplaces hsubset).perm_of_length_le hlength).nodup_iff.mp hplaces
    obtain ⟨l, hl, hlkey⟩ := mem_map.mp hmethod
    obtain ⟨l', hl', hlkey'⟩ := mem_map.mp hhandler
    have hland := hlands.lands l hl
    have hland' := hlands.lands l' hl'
    rw [hlkey] at hland
    rw [hlkey'] at hland'
    obtain rfl := inj_on_of_nodup_map hnodup hl hl'
      ((landing_completion (.inl rfl) hland).trans (landing_completion (.inr rfl) hland').symm)
    have hname : "__complete" = "onCompleted" := congrArg Prod.snd (hlkey.symm.trans hlkey')
    exact absurd hname (by decide)
  · intro hpath
    have hplaces : (landings.map (·.place)).Nodup := by
      refine pairwise_map.mpr ((hlands.clash hkeys).imp_of_mem ?_)
      intro l l' hl hl' hclash hplace
      obtain ⟨hkey, hname⟩ := hclash hplace
      refine hpath l'.key.1 (hkey ▸ mem_map_of_mem hl) ?_
      rw [← hname]
      exact mem_map_of_mem hl'
    refine ⟨_, hplaces, hplace, ?_⟩
    rw [hentries, List.forall₂_map_left_iff, List.forall₂_map_right_iff, List.forall₂_same]
    intro l hl
    have hmem := mem_map_of_mem (f := fun l : Landing => (l.place, l.made)) hl
    rw [hentry, get?_ofList (by rwa [map_map]) hmem]
    exact congrArg some (landing_cases (hlands.lands l hl)).1

/-- Preparing a component keeps all its methods, unless one called `__complete` meets a handler of completion. Two
others that meet are refused. -/
theorem keepsMethods_iff {r r' : Registry} {outcome : Option Error} (h : prepareComponent c r = ((d, outcome), r'))
    (hkeys : c.methods.keys.Nodup) :
    (outcome = none →
      (KeepsMethods c d ↔ ∀ path, (path, "__complete") ∈ c.methods.keys → (path, "onCompleted") ∉ c.methods.keys)) ∧
    ∀ base e, Sorted c r base →
      (∀ entry ∈ c.methods.entries, ∃ m landed, entry.2 = .declared m ∧ landing base entry.1 m = .ok landed) →
      outcome = some e → IsDuplicate e := by
  refine ⟨fun hnone => keepsMethods_of_prepared (hnone ▸ h) hkeys, ?_⟩
  rintro base e hsorted hlands rfl
  rcases prepareComponent_cases c r with ⟨base', parts, hsorted', hsort⟩ | ⟨-, hnot⟩
  · obtain rfl := Except.ok.inj (hsorted.base.symm.trans hsorted'.base)
    rw [h] at hsort
    exact sortMethods_error hsort.symm hlands
  · exact absurd hsorted (hnot base)

def model : Component := { name := "ui.Model", base := rootName, prototype := true, signals := ["rowsChanged"] }

def rows : Component := { name := "ui.Rows", base := "Model", prototype := true }

def models : Registry :=
  { ns := "qml", buildId := "1", packages := ⟨[("ui", ["Model", "Rows"])]⟩
    components := ⟨[("ui.Model", model), ("ui.Rows", rows)]⟩ }

def sampleMethod (name : String) (event async : Bool) : MethodKey × MethodEntry :=
  (("", name), .declared { args := [], code := "\x7b " ++ name ++ "() \x7d", event, async })

/-- A component that extends a model, with methods. -/
def view (base : String) (methods : List (MethodKey × MethodEntry)) : Component :=
  { name := "ui.View", base, prototype := true, methods := ⟨methods⟩ }

theorem prepared_of_isNone {r : Registry} (h : (prepareComponent c r).1.2.isNone = true) :
    prepareComponent c r = (((prepareComponent c r).1.1, none), (prepareComponent c r).2) :=
  Prod.ext (Prod.ext rfl (Option.isNone_iff_eq_none.mp h)) rfl

theorem keepsMethods_iff_view :
    let c := view "Model"
      [sampleMethod "onRowsChanged" true false, sampleMethod "onCompleted" true false, sampleMethod "rows" false true]
    KeepsMethods c (prepareComponent c models).1.1 :=
  ((keepsMethods_iff (prepared_of_isNone (by decide +kernel)) (by decide)).1 rfl).mpr
    (by simp [view, sampleMethod, Table.keys])

/-- The handler of completion takes the place of the method. -/
theorem completion_lost :
    let c := view "Model" [sampleMethod "__complete" false false, sampleMethod "onCompleted" true false]
    (prepareComponent c models).1.2.isNone = true ∧ ¬ KeepsMethods c (prepareComponent c models).1.1 := by
  intro c
  have hnone : (prepareComponent c models).1.2.isNone = true := by decide +kernel
  refine ⟨hnone, fun h => ?_⟩
  exact (keepsMethods_of_prepared (prepared_of_isNone hnone) (by decide)).mp h "" (by decide) (by decide)

/-! ## Signals of a base -/

/-- One component is the base of the other. -/
def BasedOn (r : Registry) (c b : Component) : Prop := (run (baseComponent c) r).1 = .ok (some b)

/-- A component is on the chain of bases of the other. -/
def Inherits (r : Registry) : Component → Component → Prop := Relation.TransGen (BasedOn r)

section Ending

variable (x : Char) (rest : List Char) {ending : List Char}
  (hending : ending = "Changed".toList ∨ ending = "Pressed".toList)

include hending in
theorem isHandlerName_of_ending : isHandlerName ('o' :: 'n' :: x :: (rest ++ ending)) = true := by
  have hne : ∀ w : List Char, ¬ ending <:+ w → rest ++ ending ≠ w := fun w hw heq => hw ⟨rest, heq⟩
  have hcompleted := hne "ompleted".toList (by rcases hending with rfl | rfl <;> decide)
  have hchanged := hne "hanged".toList (by rcases hending with rfl | rfl <;> decide)
  simp_all [isHandlerName, startsWith, after?]

include hending in
/-- The base decides between a signal and what the ending says. -/
theorem handlerKind_of_ending (b : Component) :
    ∃ kind, kind ≠ .signal ∧ handlerKind (some b) ('o' :: 'n' :: x :: (rest ++ ending)) =
      .ok (if b.signals.contains (String.ofList (small x ++ (rest ++ ending))) then .signal else kind) := by
  rcases hending with rfl | rfl
  · refine ⟨.changed, by decide, ?_⟩
    have hends : endsWith "Changed".toList ('o' :: 'n' :: x :: (rest ++ "Changed".toList)) = true := by
      simp [endsWith, startsWith, after?]
    rw [handlerKind, if_pos hends]
    rfl
  · refine ⟨.key, by decide, ?_⟩
    have hother : ¬ endsWith "Changed".toList ('o' :: 'n' :: x :: (rest ++ "Pressed".toList)) = true := by
      simp [endsWith, startsWith, after?]
    have hends : (endsWith "Pressed".toList ('o' :: 'n' :: x :: (rest ++ "Pressed".toList)) &&
        9 < ('o' :: 'n' :: x :: (rest ++ "Pressed".toList)).length) = true := by
      simp [endsWith, startsWith, after?]
    rw [handlerKind, if_neg hother, if_pos hends]
    rfl

include hending in
theorem landing_of_ending {name : String} (hname : name.toList = 'o' :: 'n' :: x :: (rest ++ ending)) {path : String}
    (hevent : m.event = true) (h : landing base (path, name) m = .ok (place, made)) :
    ∃ b, base = some b ∧ (place = (some .signal, path, String.ofList (small x ++ (rest ++ ending))) ↔
      String.ofList (small x ++ (rest ++ ending)) ∈ b.signals) := by
  have hhandler : isHandlerName name.toList = true := hname ▸ isHandlerName_of_ending x rest hending
  obtain ⟨kind, -, -, hkind, rfl, -⟩ | ⟨hnot, -⟩ := (landing_cases h).2
  · rw [hname] at hkind
    cases base with
    | none =>
      rcases hending with rfl | rfl <;>
        simp [handlerKind, signalsOf, endsWith, startsWith, after?] at hkind
    | some b =>
      obtain ⟨other, hother, heq⟩ := handlerKind_of_ending x rest hending b
      obtain rfl := Except.ok.inj (heq.symm.trans hkind)
      refine ⟨b, rfl, ?_⟩
      rw [← contains_iff_mem, hname]
      split
      · next hmem => exact iff_of_true rfl hmem
      · next hmem => exact iff_of_false (fun heq => hother (Option.some.inj (Prod.mk.inj heq).1)) hmem
  · exact absurd ⟨hevent, hhandler⟩ hnot

end Ending

/-- A handler is the one of a signal if the base declares the signal; what the base inherits does not count. -/
theorem inherited_signal_iff {r r' : Registry} {x : Char} {rest ending : List Char} {name : String}
    (h : prepareComponent c r = ((d, none), r')) (hkeys : c.methods.keys.Nodup)
    (hending : ending = "Changed".toList ∨ ending = "Pressed".toList)
    (hname : name.toList = 'o' :: 'n' :: x :: (rest ++ ending))
    (hm : c.methods.get? ("", name) = some (.declared m)) (hevent : m.event = true) :
    let signal := String.ofList (small x ++ (rest ++ ending))
    ∃ b place made, BasedOn r c b ∧ landing (some b) ("", name) m = .ok (place, made) ∧ entryAt? d place = some made ∧
      (((∃ a, Inherits r c a ∧ signal ∈ a.signals) → place = (some .signal, "", signal)) ↔
        ((∃ a, Inherits r c a ∧ signal ∈ a.signals) → signal ∈ b.signals)) := by
  intro signal
  have hlast : name = "__complete" → ("", "onCompleted") ∉ c.methods.keys := by
    rintro rfl
    cases hname
  obtain ⟨base, place, made, hbase, hland, hentry⟩ := exists_entry_of_prepared h hkeys hm hlast
  obtain ⟨b, rfl, hplace⟩ := landing_of_ending x rest hending hname hevent hland
  exact ⟨b, place, made, hbase, hland, hentry, imp_congr_right fun _ => hplace⟩

theorem inherited_signal_iff_view :
    let c := view "Model" [sampleMethod "onRowsChanged" true false]
    ∃ b place made, BasedOn models c b ∧ entryAt? (prepareComponent c models).1.1 place = some made ∧
      (((∃ a, Inherits models c a ∧ "rowsChanged" ∈ a.signals) → place = (some .signal, "", "rowsChanged")) ↔
        ((∃ a, Inherits models c a ∧ "rowsChanged" ∈ a.signals) → "rowsChanged" ∈ b.signals)) := by
  intro c
  obtain ⟨b, place, made, hbase, -, hentry, hiff⟩ := inherited_signal_iff (c := c)
    (prepared_of_isNone (r := models) (by decide +kernel)) (by decide) (.inl rfl)
    (show "onRowsChanged".toList = 'o' :: 'n' :: 'R' :: (['o', 'w', 's'] ++ "Changed".toList) from rfl) rfl rfl
  exact ⟨b, place, made, hbase, hentry, hiff⟩

/-- A signal of the base of the base is not found. -/
theorem inherited_signal_missed :
    let c := view "Rows" [sampleMethod "onRowsChanged" true false]
    (∃ a, Inherits models c a ∧ "rowsChanged" ∈ a.signals) ∧ (prepareComponent c models).1.2.isNone = true ∧
      (entryAt? (prepareComponent c models).1.1 (some .signal, "", "rowsChanged")).isNone = true ∧
      (entryAt? (prepareComponent c models).1.1 (some .changed, "", "rows")).isSome = true := by
  have hrows : BasedOn models (view "Rows" [sampleMethod "onRowsChanged" true false]) rows := rfl
  have hmodel : BasedOn models rows model := rfl
  exact ⟨⟨model, .tail (.single hrows) hmodel, by decide⟩, by decide +kernel⟩

/-! ## The rule of names -/

/-- The name of a handler: `on` and an initial. -/
def NamesHandler (initial : Char → Bool) (name : List Char) : Prop :=
  (∃ x rest, name = 'o' :: 'n' :: x :: rest ∧ initial x = true) ∧ name ≠ "onCompleted".toList ∧
    name ≠ "onChanged".toList

/-- Handlers are told by names, other names stay, and so does async. -/
structure FollowsRule (initial : Char → Bool) (key : MethodKey) (m : DeclaredMethod) (place : Place) (made : Method) :
    Prop where
  handler : place.1.isSome = true ↔ m.event = true ∧ NamesHandler initial key.2.toList
  own : place.1 = none → place.2 = if key.2 = "onCompleted" then (key.1, "__complete") else key
  async : made.async = m.async
  emitted : ∀ c r text r', run (functionText c place.2.2 made) r = (.ok text, r') →
    ("async function".toList <+: text.toList ↔ m.async = true)

theorem functionText_ok {name text : String} (h : run (functionText c name made) r = (.ok text, r')) :
    "async function".toList <+: text.toList ↔ made.async = true := by
  unfold functionText at h
  dsimp only at h
  split at h
  all_goals
    obtain ⟨_, _, -, h⟩ := run_bind_ok h
    obtain ⟨code, _, -, h⟩ := run_bind_ok h
    obtain rfl := Except.ok.inj (Prod.mk.inj h).1
    cases made.async <;> simp

theorem NamesHandler.isHandlerName {initial : Char → Bool} {name : List Char} (h : NamesHandler initial name) :
    isHandlerName name = true := by
  obtain ⟨⟨x, rest, rfl, -⟩, hcompleted, hchanged⟩ := h
  simp_all [Registry.isHandlerName, startsWith, after?]

/-- A method follows the rule, whatever may start the rest of its name, unless it is a handler whose name goes on
with something else, or which is asynchronous. -/
theorem followsRule_iff {r r' : Registry} (initial : Char → Bool) (h : prepareComponent c r = ((d, none), r'))
    (hkeys : c.methods.keys.Nodup) (hm : c.methods.get? key = some (.declared m))
    (hlast : key.2 = "__complete" → (key.1, "onCompleted") ∉ c.methods.keys) :
    ∃ base place made, (run (baseComponent c) r).1 = .ok base ∧ landing base key m = .ok (place, made) ∧
      entryAt? d place = some made ∧ (FollowsRule initial key m place made ↔
        (m.event = true → isHandlerName key.2.toList = true →
          NamesHandler initial key.2.toList ∧ m.async = false)) := by
  obtain ⟨base, place, made, hbase, hland, hentry⟩ := exists_entry_of_prepared h hkeys hm hlast
  refine ⟨base, place, made, hbase, hland, hentry, ?_⟩
  obtain ⟨kind, hevent, hname, -, hplace, hasync⟩ | ⟨hnot, hasync, hplace⟩ := (landing_cases hland).2
  · constructor
    · intro hrule _ _
      exact ⟨(hrule.handler.mp (by rw [hplace]; rfl)).2, hrule.async ▸ hasync⟩
    · intro hmeant
      obtain ⟨hnames, hdeclared⟩ := hmeant hevent hname
      refine ⟨by simp [hplace, hevent, hnames], by simp [hplace], hasync.trans hdeclared.symm, ?_⟩
      intro c r text r' htext
      rw [functionText_ok htext, hasync, hdeclared]
  · refine iff_of_true ⟨?_, fun _ => by rw [hplace], hasync, fun c r text r' htext => ?_⟩ fun hevent hname =>
      absurd ⟨hevent, hname⟩ hnot
    · rw [hplace]
      exact iff_of_false nofun fun hrule => hnot ⟨hrule.1, hrule.2.isHandlerName⟩
    · rw [functionText_ok htext, hasync]

theorem followsRule_iff_view :
    let c := view "Model"
      [sampleMethod "onRowsChanged" true false, sampleMethod "onCompleted" true false, sampleMethod "rows" false true]
    ∃ place made, entryAt? (prepareComponent c models).1.1 place = some made ∧
      FollowsRule Char.isUpper ("", "onRowsChanged")
        { args := [], code := "\x7b onRowsChanged() \x7d", event := true, async := false } place made := by
  intro c
  obtain ⟨-, place, made, -, -, hentry, hiff⟩ := followsRule_iff (c := c) Char.isUpper
    (prepared_of_isNone (r := models) (by decide +kernel)) (by decide)
    (show c.methods.get? ("", "onRowsChanged") = _ from rfl) nofun
  exact ⟨place, made, hentry, hiff.mpr fun _ _ => ⟨⟨⟨_, _, rfl, rfl⟩, by decide, by decide⟩, rfl⟩⟩

/-- A handler is no longer asynchronous, and `once` handles what is called `ce`. -/
theorem rule_not_followed :
    let c := view "Model" [sampleMethod "onRowsChanged" true true, sampleMethod "once" true false]
    let d := (prepareComponent c models).1.1
    (prepareComponent c models).1.2.isNone = true ∧
      (entryAt? d (some .signal, "", "rowsChanged")).map (·.async) = some false ∧
      (entryAt? d (some .signal, "", "ce")).isSome = true ∧ (entryAt? d (none, "", "once")).isNone = true := by
  decide +kernel

end QmlScript.Registry
