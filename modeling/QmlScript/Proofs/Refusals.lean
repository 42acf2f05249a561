import QmlScript.Proofs.MethodTables

/-!
# What preparing refuses

A component whose base is found is refused if two of its methods meet, and also if the root of all types is its base and
a handler has a name for which the base is asked for a signal.
-/

namespace QmlScript.Registry

open List Text

variable {c : Component} {r : Registry} {base : Option Component} {key : MethodKey} {m : DeclaredMethod} {e : Error}

/-- The second component is the first one or inside of it, at any depth. -/
def Inside : Component → Component → Prop := Relation.ReflTransGen fun c part => part ∈ c.parts

/-- A component that can be prepared for the first time: its base is there. -/
structure Ready (r : Registry) (c : Component) : Prop where
  base : ∃ base, (run (baseComponent c) r).1 = .ok base
  methods : ∀ entry ∈ c.methods.entries, ∃ m, entry.2 = .declared m

/-- Whether a base is asked for a signal, for a handler of the name. -/
def asksForSignal (name : List Char) : Bool :=
  isHandlerName name &&
    (endsWith "Changed".toList name || endsWith "Pressed".toList name && 9 < name.length)

def Asking (entries : List (MethodKey × MethodEntry)) : Prop :=
  ∃ key m, (key, .declared m) ∈ entries ∧ m.event = true ∧ asksForSignal key.2.toList = true

/-- The root of all types would be asked for a signal. -/
def AsksRoot (r : Registry) (c : Component) : Prop := (run (baseComponent c) r).1 = .ok none ∧ Asking c.methods.entries

theorem landing_error (h : landing base key m = .error e) :
    base = none ∧ m.event = true ∧ asksForSignal key.2.toList = true ∧ e = .rootHasNoSignals := by
  revert h
  unfold landing asksForSignal handlerKind
  generalize endsWith "Changed".toList key.2.toList = changed
  generalize (endsWith "Pressed".toList key.2.toList && decide (9 < key.2.toList.length)) = pressed
  generalize isHandlerName key.2.toList = handler
  cases base <;> cases m.event <;> cases handler <;> cases changed <;> cases pressed <;>
    simp [signalsOf, bind, Except.bind, pure, Except.pure, eq_comm]

theorem sortMethod_of_landing (h : landing base key m = .error e) : sortMethod c base key (.declared m) = .error e := by
  unfold landing at h
  unfold sortMethod
  dsimp only
  split at h
  · next hhandler =>
    rw [if_pos hhandler, addHandler]
    cases hkind : handlerKind base key.2.toList with
    | error e =>
      rw [hkind] at h
      cases h
      rfl
    | ok kind =>
      rw [hkind] at h
      cases h
  · cases h

theorem sortMethods_refuses {entries : List (MethodKey × MethodEntry)}
    (hdeclared : ∀ entry ∈ entries, ∃ m, entry.2 = .declared m) (h : (sortMethods c base entries).2 = some e) :
    IsDuplicate e ∨ e = .rootHasNoSignals ∧ base = none ∧ Asking entries := by
  induction entries generalizing c with
  | nil => cases h
  | cons entry entries ih =>
    obtain ⟨key, entry⟩ := entry
    obtain ⟨⟨m, rfl⟩, hentries⟩ := forall_mem_cons.mp hdeclared
    rw [sortMethods] at h
    cases hone : sortMethod c base key (.declared m) with
    | error e' =>
      rw [hone] at h
      cases h
      cases hland : landing base key m with
      | error e =>
        rw [sortMethod_of_landing hland] at hone
        cases hone
        obtain ⟨hbase, hevent, hasks, he⟩ := landing_error hland
        exact .inr ⟨he, hbase, key, m, mem_cons_self, hevent, hasks⟩
      | ok landed => exact .inl (sortMethod_error hone hland)
    | ok c' =>
      rw [hone] at h
      obtain h | ⟨he, hbase, key, m, hmem, hasks⟩ := ih hentries h
      · exact .inl h
      · exact .inr ⟨he, hbase, key, m, .tail _ hmem, hasks⟩

mutual

/-- By induction on the component: identifiers of its parts matter to no base. -/
theorem prepareComponent_refuses (c : Component) (ids : NameSet) (h : ∀ d, Inside c d → Ready r d)
    (he : (prepareComponent c { r with ids }).1.2 = some e) :
    IsDuplicate e ∨ e = .rootHasNoSignals ∧ ∃ d, Inside c d ∧ AsksRoot r d := by
  have hparts := prepareParts_refuses c.parts (c.ids.foldl NameSet.add ids) fun part hpart d hd => h d (.head hpart hd)
  have hlearns := (prepareParts_learns c.parts { r with ids := c.ids.foldl NameSet.add ids }).rest
  obtain ⟨base, hbase⟩ := (h c .refl).base
  rw [prepareComponent_eq] at he
  rcases hp : prepareParts c.parts { r with ids := c.ids.foldl NameSet.add ids } with ⟨⟨parts, _ | e'⟩, s⟩
  · rw [hp] at he hlearns
    dsimp only at hlearns he
    rw [hlearns, baseComponent_ids, hbase] at he
    exact (sortMethods_refuses (h c .refl).methods he).imp_right fun ⟨hroot, hnone, hasking⟩ =>
      ⟨hroot, c, .refl, hnone ▸ hbase, hasking⟩
  · rw [hp] at he hparts
    exact (hparts he).imp_right fun ⟨hroot, part, hpart, d, hd, hasks⟩ => ⟨hroot, d, .head hpart hd, hasks⟩
termination_by sizeOf c
decreasing_by exact c.sizeOf_parts_lt

theorem prepareParts_refuses (parts : List Component) (ids : NameSet)
    (h : ∀ part ∈ parts, ∀ d, Inside part d → Ready r d) (he : (prepareParts parts { r with ids }).1.2 = some e) :
    IsDuplicate e ∨ e = .rootHasNoSignals ∧ ∃ part ∈ parts, ∃ d, Inside part d ∧ AsksRoot r d := by
  match parts with
  | [] =>
    rw [prepareParts] at he
    cases he
  | part :: parts =>
    rw [forall_mem_cons] at h
    have hpart := prepareComponent_refuses part ids h.1
    have hlearns := prepareComponent_registry part { r with ids }
    rw [prepareParts] at he
    rcases hp : prepareComponent part { r with ids } with ⟨⟨part', _ | e'⟩, s⟩
    · rw [hp] at he hlearns
      dsimp only at hlearns he
      rw [hlearns] at he
      exact (prepareParts_refuses parts s.ids h.2 he).imp_right fun ⟨hroot, part, hmem, hasks⟩ =>
        ⟨hroot, part, .tail _ hmem, hasks⟩
    · rw [hp] at he hpart
      exact (hpart he).imp_right fun ⟨hroot, hasks⟩ => ⟨hroot, part, mem_cons_self, hasks⟩
termination_by sizeOf parts

end

/-- A component whose bases are all found, at any depth, is refused only for two methods that meet, or because the root
of all types is asked for a signal. -/
theorem refused_only_as_duplicate (h : ∀ d, Inside c d → Ready r d) (he : (prepareComponent c r).1.2 = some e) :
    IsDuplicate e ∨ e = .rootHasNoSignals ∧ ∃ d, Inside c d ∧ AsksRoot r d :=
  prepareComponent_refuses c r.ids h he

/-- The component with another one inside, which extends the root. -/
def housing (c : Component) (methods : List (MethodKey × MethodEntry)) : Component :=
  { c with parts := [view rootName methods] }

theorem inside_housing {methods : List (MethodKey × MethodEntry)} {d : Component} (h : Inside (housing c methods) d) :
    d = housing c methods ∨ d = view rootName methods := by
  rcases h.cases_head with rfl | ⟨part, hpart, h⟩
  · exact .inl rfl
  · obtain rfl := mem_singleton.mp hpart
    rcases h.cases_head with rfl | ⟨part, hpart, -⟩
    · exact .inr rfl
    · cases hpart

theorem refused_only_as_duplicate_view :
    let c := housing (view "Model" []) [sampleMethod "onRowsChanged" true false]
    ∃ d, Inside c d ∧ AsksRoot models d := by
  intro c
  have hrefused : (prepareComponent c models).1.2 = some .rootHasNoSignals := by rfl
  refine ((refused_only_as_duplicate (fun d hd => ?_) hrefused).resolve_left (by rintro ⟨_, h | h | h⟩ <;> cases h)).2
  rcases inside_housing hd with rfl | rfl
  · exact ⟨⟨_, rfl⟩, by simp [housing, view]⟩
  · exact ⟨⟨_, rfl⟩, by simp [view, sampleMethod]⟩

/-- All bases are found, and still the root is asked for its signals, which it does not have. -/
theorem root_asked :
    let c := housing (view "Model" []) [sampleMethod "onRowsChanged" true false]
    (∀ d, Inside c d → Ready models d) ∧ (prepareComponent c models).1.2 = some .rootHasNoSignals := by
  refine ⟨fun d hd => ?_, by rfl⟩
  rcases inside_housing hd with rfl | rfl
  · exact ⟨⟨_, rfl⟩, by simp [housing, view]⟩
  · exact ⟨⟨_, rfl⟩, by simp [view, sampleMethod]⟩

end QmlScript.Registry
