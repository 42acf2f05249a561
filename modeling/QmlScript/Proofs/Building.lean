import QmlScript.Proofs.Preparation
import QmlScript.Proofs.Results

/-!
# Components that are built

A component is built in steps, and what one step keeps, a built component has, with every part inside of it.
So each part has one use, each name stands for one property, and no property is given two values or animated
twice.
-/

namespace QmlScript.Component

open List Table

variable {c c' d : Component} {name : String} {part : Component} {target : String} {value : Tree}
  {items : List (String × Tree)} {prototype : Bool} {path : List Nat}

/-- A component that was built, as a type or as a part of one. -/
def IsBuilt (c : Component) : Prop := ∃ name base prototype body, addAll { name, base, prototype } body = .ok c

/-- The component without what no other declaration looks at. -/
def outline (c : Component) : Component :=
  { c with
    id := none, ctor := "", prototypeCtor := "", constants := {}, constProperties := {}, signals := [], rows := []
    methods := {}, handlers := none }

/-- The names that stand for properties, aliases and choices. -/
def names (c : Component) : List String := c.declared.keys ++ c.aliases.keys ++ c.choices.keys

/-- The names in the declarations of properties. -/
def declaredProperties (c : Component) : List (String × Property) :=
  c.properties.flatMap fun p => p.items.map fun item => (item.1, p)

/-- How a value is stored: a component becomes the part of an index. -/
inductive Stored (index : Nat) : Tree → List Component → Assigned → Prop
  | plain (value : Json) : Stored index (.plain value) [] (assignedPlain value)
  | part {doc : Option String} {name base : String} {body : List Tree} {part : Component}
      (h : addAll { name, base, prototype := false } body = .ok part) :
      Stored index (.component doc base body) [part] (.part index)
  | other {tree : Tree} (hplain : ∀ value, tree ≠ .plain value)
      (hcomponent : ∀ doc base body, tree ≠ .component doc base body) : Stored index tree [] (.other tree)

/-- What a declaration does: declare properties, name one, or give it a value. -/
inductive Event
  | declared (p : Property)
  | named (name : String) (p : Property)
  | given (target : String) (value : Tree)

/-- One step of building a component. -/
inductive Step (c : Component) : List Event → Component → Prop
  | quiet {c' : Component} (h : c'.outline = c.outline) : Step c [] c'
  | alias {name target : String} (hnew : c.hasProperty name = false) :
      Step c [] { c with aliases := c.aliases.insert name target }
  | choice {name : String} {choice : Choice} (hnew : c.hasProperty name = false) :
      Step c [] { c with choices := c.choices.insert name choice }
  | declare {p : Property} : Step c [.declared p] { c with properties := c.properties ++ [p] }
  | name {name : String} {p : Property} (hnew : c.hasProperty name = false) :
      Step c [.named name p] { c with declared := c.declared.insert name p }
  | child {part : Component} (hpart : IsBuilt part) :
      Step c [] { c with parts := c.parts ++ [part], children := c.children ++ [c.parts.length] }
  | animation {target : String} {part : Component} (hpart : IsBuilt part) (hnew : target ∉ c.animations.keys) :
      Step c [] { c with
        parts := c.parts ++ [part], animations := c.animations.insert target c.parts.length }
  | lazy {name : String} {p : Property} {part : Component} (hpart : IsBuilt part) (hnew : c.hasProperty name = false) :
      Step c [.named name p] { c with
        declared := c.declared.insert name p
        parts := c.parts ++ [part], lazyParts := c.lazyParts.insert name c.parts.length }
  | value {target : String} {value : Tree} {parts : List Component} {stored : Assigned}
      (hnew : target ∉ c.assignments.keys) (h : Stored c.parts.length value parts stored) :
      Step c [.given target value] { c with
        parts := c.parts ++ parts, assignments := c.assignments.insert target stored }

/-- Steps one after the other. -/
inductive Steps : Component → List Event → Component → Prop
  | refl (c : Component) : Steps c [] c
  | step {c c' : Component} {events : List Event} (h : Step c events c') : Steps c events c'
  | trans {c d c' : Component} {events events' : List Event} (h : Steps c events d) (h' : Steps d events' c') :
      Steps c (events ++ events') c'

/-- Whether an initial value is given to its property later on. -/
def isDeferred : Tree → Bool
  | .plain .null => false
  | value => (isTrivialValue value).toOption == some false

/-- What is done for a line in the block of an object. -/
def scopeEvent? (object : String) : Tree → Option Event
  | .assignment _ target value => some (.given (object ++ "." ++ target) value)
  | _ => none

/-- What is done for a property with its initial value. -/
def itemEvents (p : Property) (item : String × Tree) : List Event :=
  .named item.1 p :: if !p.isLazy && !p.isConst && isDeferred item.2 then [.given item.1 item.2] else []

/-- What is done for a declaration. -/
def events : Tree → List Event
  | .property doc type items =>
    let p : Property := { doc, type, items }
    .declared p :: items.flatMap (itemEvents p)
  | .identifier _ name => [.given "id" (.text name)]
  | .assignment _ target value => [.given target value]
  | .scope _ object values => values.filterMap (scopeEvent? object)
  | _ => []

theorem not_mem_names (h : c.hasProperty name = false) : name ∉ c.names := by
  simpa [hasProperty, ← Bool.not_eq_true, Table.contains_iff, names, and_assoc] using h

theorem not_mem_declared (h : c.hasProperty name = false) : name ∉ c.declared.keys :=
  fun hmem => not_mem_names h (mem_append_left _ (mem_append_left _ hmem))

theorem assign_ok {value : Assigned} (h : c.assign target value = .ok c') :
    target ∉ c.assignments.keys ∧ c' = { c with assignments := c.assignments.insert target value } := by
  unfold assign at h
  split at h
  · cases h
  · rename_i hnew
    exact ⟨fun hmem => hnew ((Table.contains_iff _ _).mpr hmem), (Except.ok.inj h).symm⟩

theorem assignNode_step (h : c.assignNode target value = .ok c') :
    Step c [.given target value] c' := by
  have hplain : ∀ {stored}, Stored c.parts.length value [] stored → c.assign target stored = .ok c' →
      Step c [.given target value] c' := by
    intro stored hstored hassign
    obtain ⟨hnew, rfl⟩ := assign_ok hassign
    have hstep := Step.value hnew hstored
    rwa [append_nil] at hstep
  cases value with
  | component doc base body =>
    rw [assignNode] at h
    obtain ⟨part, hpart, h⟩ := of_bind_eq_ok h
    obtain ⟨hnew, rfl⟩ := assign_ok h
    exact .value hnew (.part hpart)
  | plain value =>
    rw [assignNode] at h
    exact hplain (.plain value) h
  | _ =>
    rw [assignNode] at h
    · exact hplain (.other (by simp) (by simp)) h
    · simp
    · simp

theorem assignScope_steps {object : String} {values : List Tree} (h : c.assignScope object values = .ok c') :
    Steps c (values.filterMap (scopeEvent? object)) c' := by
  induction values generalizing c with
  | nil =>
    rw [assignScope] at h
    cases h
    exact .refl _
  | cons value values ih =>
    cases value with
    | assignment doc target value =>
      rw [assignScope] at h
      obtain ⟨d, hd, h⟩ := of_bind_eq_ok h
      exact (Steps.step (assignNode_step hd)).trans (ih h)
    | behavior doc targets animation =>
      rw [assignScope] at h
      cases h
    | _ =>
      rw [assignScope] at h
      · cases h
      · simp
      · simp

theorem addMethods_quiet {method : DeclaredMethod} {names : List String} (h : c.addMethods method names = .ok c') :
    c'.outline = c.outline := by
  induction names generalizing c with
  | nil =>
    cases h
    rfl
  | cons name names ih =>
    obtain ⟨d, hd, h⟩ := of_bind_eq_ok h
    rw [ih h]
    unfold addMethod at hd
    dsimp only at hd
    repeat' split at hd
    all_goals first
      | cases hd; rfl
      | cases hd

theorem animate_steps {animation : Except Error Component} (ha : ∀ part, animation = .ok part → IsBuilt part)
    {targets : List String} (h : c.animate animation targets = .ok c') : Steps c [] c' := by
  induction targets generalizing c with
  | nil =>
    cases h
    exact .refl _
  | cons target targets ih =>
    rw [animate] at h
    dsimp only at h
    split at h
    · cases h
    · rename_i hnew
      obtain ⟨part, hpart, h⟩ := of_bind_eq_ok h
      have hout : target ∉ c.animations.keys := fun hmem => hnew ((Table.contains_iff _ _).mpr hmem)
      exact (Steps.step (.animation (ha part hpart) hout)).trans (ih h)

theorem addItems_cons {p : Property} (h : c.addItems p ((name, value) :: items) = .ok c') :
    ∃ d, Steps c (itemEvents p (name, value)) d ∧ d.addItems p items = .ok c' := by
  rw [addItems] at h
  dsimp only at h
  split at h
  · cases h
  rename_i hnew
  have hnew := Bool.eq_false_iff.mpr hnew
  have hname : Step c [.named name p] { c with declared := c.declared.insert name p } := .name hnew
  split at h
  · rename_i hlazy
    rw [itemEvents, hlazy]
    cases value with
    | component doc base body =>
      dsimp only at h
      split at h
      · cases h
      · obtain ⟨part, hpart, h⟩ := of_bind_eq_ok h
        exact ⟨_, .step (.lazy ⟨_, _, _, _, hpart⟩ hnew), h⟩
    | _ => cases h
  rename_i hlazy
  split at h
  · rename_i hconst
    split at h
    · cases h
    · rw [itemEvents, hconst, Bool.not_true, Bool.and_false, Bool.false_and, if_neg Bool.false_ne_true]
      let d := { c with declared := c.declared.insert name p, constProperties := c.constProperties.insert name value }
      exact ⟨d, (Steps.step hname).trans (.step (.quiet rfl)), h⟩
  · rename_i hconst
    rw [itemEvents, Bool.eq_false_iff.mpr hlazy, Bool.eq_false_iff.mpr hconst]
    -- the value is stored like any other, unless it is trivial
    have hstored : ∀ {added : Except Error Component}, isDeferred value = true →
        (∀ d, added = .ok d → assignNode { c with declared := c.declared.insert name p } name value = .ok d) →
        (added >>= fun d => d.addItems p items) = .ok c' →
        ∃ d, Steps c (.named name p :: if !false && !false && isDeferred value then [.given name value] else []) d ∧
          d.addItems p items = .ok c' := by
      intro added hdeferred hadded h
      obtain ⟨d, hd, h⟩ := of_bind_eq_ok h
      rw [hdeferred]
      exact ⟨d, (Steps.step hname).trans (.step (assignNode_step (hadded d hd))), h⟩
    cases value with
    | component doc base body =>
      obtain ⟨part, hpart, h⟩ := of_bind_eq_ok h
      refine hstored rfl (fun d hd => ?_) h
      rw [assignNode, hpart]
      exact hd
    | plain value =>
      cases value with
      | null => exact ⟨_, .step hname, h⟩
      | _ =>
        obtain ⟨trivial, htrivial, h⟩ := of_bind_eq_ok h
        cases trivial with
        | true => exact ⟨_, by simp [isDeferred, htrivial, Except.toOption, Steps.step hname], h⟩
        | false => exact hstored (by simp [isDeferred, htrivial, Except.toOption]) (fun d hd => by rwa [assignNode]) h
    | _ => exact hstored rfl (fun d hd => by rw [assignNode] <;> simp [hd]) h

theorem addItems_steps {p : Property} (h : c.addItems p items = .ok c') :
    Steps c (items.flatMap (itemEvents p)) c' := by
  induction items generalizing c with
  | nil =>
    rw [addItems] at h
    cases h
    exact .refl _
  | cons item items ih =>
    obtain ⟨d, hd, h⟩ := addItems_cons h
    exact hd.trans (ih h)

theorem addChild_steps {child : Tree} (h : c.addChild child = .ok c') : Steps c (events child) c' := by
  cases child with
  | component doc base body =>
    rw [addChild] at h
    obtain ⟨part, hpart, h⟩ := of_bind_eq_ok h
    cases h
    exact .step (.child ⟨_, _, _, _, hpart⟩)
  | property doc type items =>
    rw [addChild] at h
    exact (Steps.step .declare).trans (addItems_steps h)
  | «alias» doc name target =>
    rw [addChild] at h
    split at h <;> cases h
    exact .step (.alias (Bool.eq_false_iff.mpr ‹_›))
  | choice doc name values default =>
    rw [addChild] at h
    split at h <;> cases h
    exact .step (.choice (Bool.eq_false_iff.mpr ‹_›))
  | method doc names args code event async =>
    rw [addChild] at h
    exact .step (.quiet (addMethods_quiet h))
  | identifier doc name =>
    rw [addChild] at h
    have hnamed : Steps c [] { c with id := some name } := .step (.quiet rfl)
    have hassign : assignNode { c with id := some name } "id" (.text name) = .ok c' := by rwa [Node.text, assignNode]
    exact hnamed.trans (.step (assignNode_step hassign))
  | assignment doc target value =>
    rw [addChild] at h
    split at h
    · cases h
    · exact .step (assignNode_step h)
  | scope doc target values =>
    rw [addChild] at h
    exact assignScope_steps h
  | behavior doc targets animation =>
    cases animation with
    | component doc base body =>
      rw [addChild] at h
      exact animate_steps (fun part hpart => ⟨_, _, _, _, hpart⟩) h
    | _ =>
      rw [addChild] at h
      · exact animate_steps (by simp) h
      · simp
  | const doc type name value | signal doc name =>
    rw [addChild] at h
    split at h <;> cases h
    exact .step (.quiet rfl)
  | row data =>
    rw [addChild] at h
    cases h
    exact .step (.quiet rfl)
  | plain value =>
    rw [addChild] at h
    cases h

theorem addAll_steps {body : List Tree} (h : c.addAll body = .ok c') : Steps c (body.flatMap events) c' := by
  induction body generalizing c with
  | nil =>
    rw [addAll] at h
    cases h
    exact .refl _
  | cons child body ih =>
    rw [addAll] at h
    obtain ⟨d, hd, h⟩ := of_bind_eq_ok h
    exact (addChild_steps hd).trans (ih h)

/-! ## What building keeps -/

/-- The index of the part that a value is. -/
def partIndex? : Assigned → Option Nat
  | .part index => some index
  | _ => none

/-- The parts that children, values, animations and lazy properties name. -/
def uses (c : Component) : List Nat :=
  c.children ++ c.assignments.values.filterMap partIndex? ++ c.animations.values ++ c.lazyParts.values

/-- Each part is used once, and each name stands for one thing. -/
structure Complete (c : Component) : Prop where
  uses : c.uses.Perm (range c.parts.length)
  names : c.names.Nodup
  assignments : c.assignments.keys.Nodup
  animations : c.animations.keys.Nodup
  lazyParts : c.lazyParts.keys ⊆ c.declared.keys
  parts : ∀ part ∈ c.parts, IsBuilt part

theorem values_insert {κ α : Type} [DecidableEq κ] {t : Table κ α} {key : κ} (h : key ∉ t.keys) (value : α) :
    (t.insert key value).values = t.values ++ [value] := by
  rw [Table.insert_of_not_mem h, values, values, map_append]
  rfl

theorem keys_insert_new {κ α : Type} [DecidableEq κ] {t : Table κ α} {key : κ} (h : key ∉ t.keys) (value : α) :
    (t.insert key value).keys = t.keys ++ [key] := by
  rw [keys_insert, if_neg h]

theorem Stored.cases {index : Nat} {parts : List Component} {stored : Assigned}
    (h : Stored index value parts stored) : (parts = [] ∧ partIndex? stored = none) ∨
      ∃ part, IsBuilt part ∧ parts = [part] ∧ stored = .part index := by
  cases h with
  | plain value => exact .inl ⟨rfl, by cases value <;> rfl⟩
  | part h => exact .inr ⟨_, ⟨_, _, _, _, h⟩, rfl, rfl⟩
  | other => exact .inl ⟨rfl, rfl⟩

theorem Complete.new_name (h : Complete c) (hnew : c.hasProperty name = false)
    (hcount : ∀ other, c'.names.count other = c.names.count other + [name].count other) : c'.names.Nodup := by
  have hperm : c'.names.Perm (c.names ++ [name]) := perm_iff_count.mpr fun other => by rw [hcount, count_append]
  exact hperm.nodup_iff.mpr (nodup_append'.mpr ⟨h.names, nodup_singleton _, by simpa using not_mem_names hnew⟩)

theorem Complete.new_part (h : Complete c) (hparts : c'.parts = c.parts ++ [part])
    (hcount : ∀ index, c'.uses.count index = c.uses.count index + [c.parts.length].count index) :
    c'.uses.Perm (range c'.parts.length) := by
  have hperm : c'.uses.Perm (c.uses ++ [c.parts.length]) := perm_iff_count.mpr fun index => by rw [hcount, count_append]
  rw [hparts, length_append, length_singleton, range_succ]
  exact hperm.trans (h.uses.append_right _)

theorem Complete.step {events : List Event} (h : Complete c) (hs : Step c events c') : Complete c' := by
  have hpart : ∀ {part}, IsBuilt part → ∀ other ∈ c.parts ++ [part], IsBuilt other :=
    fun hpart => forall_mem_append.mpr ⟨h.parts, forall_mem_singleton.mpr hpart⟩
  cases hs with
  | quiet hsame =>
    have houtline : Complete c'.outline := hsame ▸ { h with }
    exact { houtline with }
  | «alias» hnew =>
    have hout := fun hmem => not_mem_names hnew (mem_append_left _ (mem_append_right _ hmem))
    refine { h with names := h.new_name hnew fun other => ?_ }
    simp only [Component.names, keys_insert_new hout, count_append]
    omega
  | choice hnew =>
    have hout := fun hmem => not_mem_names hnew (mem_append_right _ hmem)
    refine { h with names := h.new_name hnew fun other => ?_ }
    simp only [Component.names, keys_insert_new hout, count_append]
    omega
  | declare => exact { h with }
  | name hnew =>
    refine { h with names := h.new_name hnew fun other => ?_, lazyParts := fun other ho => ?_ }
    · simp only [Component.names, keys_insert_new (not_mem_declared hnew), count_append]
      omega
    · exact (mem_keys_insert _ _ _ _).mpr (.inr (h.lazyParts ho))
  | child hbuilt =>
    refine { h with uses := h.new_part rfl fun index => ?_, parts := hpart hbuilt }
    simp only [Component.uses, count_append]
    omega
  | animation hbuilt hnew =>
    refine { h with
      uses := h.new_part rfl fun index => ?_, animations := nodup_keys_insert h.animations _ _, parts := hpart hbuilt }
    simp only [Component.uses, values_insert hnew, count_append]
    omega
  | @lazy name p part hbuilt hnew =>
    have hout : name ∉ c.lazyParts.keys := fun hmem => not_mem_declared hnew (h.lazyParts hmem)
    refine { h with
      uses := h.new_part rfl fun index => ?_, names := h.new_name hnew fun other => ?_
      lazyParts := fun other ho => (mem_keys_insert _ _ _ _).mpr ?_, parts := hpart hbuilt }
    · simp only [Component.uses, values_insert hout, count_append]
      omega
    · simp only [Component.names, keys_insert_new (not_mem_declared hnew), count_append]
      omega
    · exact ((mem_keys_insert _ _ _ _).mp ho).imp_right fun ho => h.lazyParts ho
  | value hnew hstored =>
    have hassignments := nodup_keys_insert h.assignments
    rcases hstored.cases with ⟨rfl, hnone⟩ | ⟨part, hbuilt, rfl, rfl⟩
    · refine { h with uses := ?_, assignments := hassignments _ _, parts := by simpa using h.parts }
      simpa [Component.uses, values_insert hnew, hnone] using h.uses
    · refine { h with
        uses := h.new_part rfl fun index => ?_, assignments := hassignments _ _, parts := hpart hbuilt }
      simp only [Component.uses, values_insert hnew, filterMap_append, filterMap_cons, filterMap_nil, partIndex?,
        count_append]
      omega

theorem Complete.steps {events : List Event} (h : Complete c) (hs : Steps c events c') : Complete c' := by
  induction hs with
  | refl => exact h
  | step hs => exact h.step hs
  | trans _ _ ih ih' => exact ih' (ih h)

theorem IsBuilt.complete (h : IsBuilt c) : Complete c := by
  obtain ⟨name, base, prototype, body, h⟩ := h
  have hfresh : Complete { name, base, prototype } := ⟨.refl _, nodup_nil, nodup_nil, nodup_nil, nil_subset _, by simp⟩
  exact hfresh.steps (addAll_steps h)

/-- The property that an event declares. -/
def Event.property? : Event → Option Property
  | .declared p => some p
  | _ => none

/-- The name that an event gives, and its property. -/
def Event.entry? : Event → Option (String × Property)
  | .named name p => some (name, p)
  | _ => none

theorem Step.declares {changes : List Event} (h : Step c changes c') :
    c'.properties = c.properties ++ changes.filterMap Event.property? ∧
      c'.declared.entries = c.declared.entries ++ changes.filterMap Event.entry? := by
  have hinsert : ∀ {name} (p : Property), c.hasProperty name = false →
      (c.declared.insert name p).entries = c.declared.entries ++ [(name, p)] := by
    intro name p hnew
    rw [Table.insert_of_not_mem (not_mem_declared hnew)]
  cases h with
  | quiet h =>
    have hproperties : c'.properties = c.properties := (congrArg Component.properties h :)
    have hdeclared : c'.declared = c.declared := (congrArg Component.declared h :)
    simp [hproperties, hdeclared]
  | name hnew | lazy _ hnew => exact ⟨(append_nil _).symm, hinsert _ hnew⟩
  | declare => exact ⟨rfl, (append_nil _).symm⟩
  | _ => exact ⟨(append_nil _).symm, (append_nil _).symm⟩

theorem Steps.declares {changes : List Event} (h : Steps c changes c') :
    c'.properties = c.properties ++ changes.filterMap Event.property? ∧
      c'.declared.entries = c.declared.entries ++ changes.filterMap Event.entry? := by
  induction h with
  | refl => simp
  | step h => exact h.declares
  | trans _ _ ih ih' =>
    rw [ih'.1, ih.1, ih'.2, ih.2, filterMap_append, filterMap_append, append_assoc, append_assoc]
    exact ⟨rfl, rfl⟩

/-- A declaration names the properties that it declares. -/
theorem entries_events (child : Tree) : (events child).filterMap Event.entry? =
    ((events child).filterMap Event.property?).flatMap fun p => p.items.map fun item => (item.1, p) := by
  cases child with
  | property doc type items =>
    have hitem : ∀ p item, (itemEvents p item).filterMap Event.entry? = [(item.1, p)] ∧
        (itemEvents p item).filterMap Event.property? = [] := by
      intro p item
      rw [itemEvents]
      split <;> exact ⟨rfl, rfl⟩
    have hnone : items.flatMap (fun _ => ([] : List Property)) = [] := flatMap_eq_nil_iff.mpr fun _ _ => rfl
    simp [events, filterMap_cons, filterMap_flatMap, hitem, hnone, Event.property?, Event.entry?, ← map_eq_flatMap]
  | scope doc object values =>
    have hscope : ∀ value, ((scopeEvent? object value).bind Event.entry?) = none ∧
        ((scopeEvent? object value).bind Event.property?) = none := by
      intro value
      cases value <;> exact ⟨rfl, rfl⟩
    simp [events, filterMap_filterMap, hscope]
  | _ => rfl

/-- The table of properties has the names of the declarations, in order. -/
theorem IsBuilt.declared (h : IsBuilt c) : c.declared.entries = c.declaredProperties := by
  obtain ⟨name, base, prototype, body, h⟩ := h
  obtain ⟨hproperties, hdeclared⟩ := (addAll_steps h).declares
  rw [hdeclared, declaredProperties, hproperties, nil_append, nil_append, filterMap_flatMap, filterMap_flatMap,
    flatMap_assoc]
  exact congrArg body.flatMap (funext entries_events)

theorem isBuilt_of_build {tree : Tree} (h : build name prototype tree = .ok c) : IsBuilt c := by
  cases tree with
  | component doc base body => exact ⟨_, _, _, _, h⟩
  | _ => cases h

theorem Steps.name_eq {events : List Event} (h : Steps c events c') : c'.name = c.name := by
  induction h with
  | refl => rfl
  | step h =>
    cases h with
    | quiet h => exact (congrArg Component.name h :)
    | _ => rfl
  | trans _ _ ih ih' => exact ih'.trans ih

theorem name_of_build {tree : Tree} (h : build name prototype tree = .ok c) : c.name = name := by
  cases tree with
  | component doc base body => exact (addAll_steps h).name_eq
  | _ => cases h

/-! ## What a component and its parts are apart from methods -/

mutual

/-- A component without parts. -/
def bare : Component → Component
  | c@{ parts, .. } => { c with methods := {}, handlers := none, parts := bareParts parts }

def bareParts : List Component → List Component
  | [] => []
  | part :: parts => bare part :: bareParts parts

end

theorem bare_eq (c : Component) : bare c = { c with methods := {}, handlers := none, parts := bareParts c.parts } := by
  cases c
  simp only [bare]

theorem bareParts_eq_map (parts : List Component) : bareParts parts = parts.map bare := by
  induction parts with
  | nil => simp only [bareParts, map_nil]
  | cons part parts ih => simp only [bareParts, map_cons, ih]

theorem at?_bare (path : List Nat) (c : Component) : (bare c).at? path = (c.at? path).map bare := by
  induction path generalizing c with
  | nil => rfl
  | cons index path ih =>
    have hpart : (bare c).part? index = (c.part? index).map bare := by
      simp [part?, bare_eq, bareParts_eq_map]
    rw [at?, at?, hpart]
    cases c.part? index with
    | none => rfl
    | some part => exact ih part

/-- What parts take over from a component, all parts inside have. -/
theorem of_at? {P : Component → Prop} (hparts : ∀ {c}, P c → ∀ part ∈ c.parts, P part) (h : P c)
    (hd : c.at? path = some d) : P d := by
  induction path generalizing c with
  | nil =>
    cases hd
    exact h
  | cons index path ih =>
    rw [Component.at?] at hd
    obtain ⟨part, hpart, hd⟩ := Option.bind_eq_some_iff.mp hd
    exact ih (hparts h part (mem_of_getElem? hpart)) hd

theorem IsBuilt.at? (h : IsBuilt c) (hd : c.at? path = some d) : IsBuilt d :=
  of_at? (fun h => h.complete.parts) h hd

end QmlScript.Component

namespace QmlScript.Registry

open Component

theorem bare_of_withoutMethods {c d : Component} (h : withoutMethods c = withoutMethods d) : c.bare = d.bare := by
  have hbare : ∀ c : Component, c.bare = { withoutMethods c with parts := bareParts (withoutMethods c).parts } :=
    bare_eq
  rw [hbare c, hbare d, h]

mutual

theorem bare_prepareComponent (c : Component) (r : Registry) : (prepareComponent c r).1.1.bare = c.bare := by
  rw [prepareComponent_eq]
  have hparts := bareParts_prepareParts c.parts (withIds c r)
  rcases hp : prepareParts c.parts (withIds c r) with ⟨⟨parts, e⟩, s⟩
  rw [hp] at hparts
  dsimp only at hparts
  have hcleared : Component.bare { c with parts, methods := {}, handlers := some {} } = c.bare := by
    rw [bare_eq, bare_eq c, ← hparts]
  cases e with
  | some e =>
    show Component.bare { c with parts } = c.bare
    rw [bare_eq, bare_eq c, ← hparts]
  | none =>
    dsimp only
    cases (run (baseComponent c) s).1 with
    | error e => exact hcleared
    | ok base => exact (bare_of_withoutMethods (sortMethods_withoutMethods _ _ _)).trans hcleared
termination_by sizeOf c
decreasing_by exact c.sizeOf_parts_lt

theorem bareParts_prepareParts (parts : List Component) (r : Registry) :
    bareParts (prepareParts parts r).1.1 = bareParts parts := by
  match parts with
  | [] => rw [prepareParts]
  | part :: parts =>
    have hpart := bare_prepareComponent part r
    rw [prepareParts]
    rcases hp : prepareComponent part r with ⟨⟨part', e⟩, s⟩
    rw [hp] at hpart
    dsimp only at hpart
    cases e with
    | some e => simp only [bareParts, hpart]
    | none =>
      have hrest := bareParts_prepareParts parts s
      simp only [bareParts, hpart, hrest]
termination_by sizeOf parts

end

end QmlScript.Registry
