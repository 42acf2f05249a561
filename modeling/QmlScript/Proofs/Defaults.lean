import QmlScript.Proofs.AttachedOnce
import QmlScript.Proofs.SlotNames

/-!
# Initial values are given once

An initial value that is trivial is an argument of the call that declares the property, and stores nothing.
Any other initial value is stored, and the setup writes it once.
-/

namespace QmlScript.Component

open List Table

variable {c d c' : Component} {key : String} {value : Tree} {body : List Tree} {changes : List Event}

/-! ## What is stored for values -/

/-- What is stored stands for the value: a component is among the parts. -/
def Holds (parts : List Component) (value : Tree) (stored : Assigned) : Prop :=
  ∃ index new, Stored index value new stored ∧ ∀ part ∈ new, parts[index]? = some part

def Event.target? : Event → Option String
  | .given target _ => some target
  | _ => none

/-- From `c` to `c'` the values are stored that the events say. -/
structure Grows (c : Component) (changes : List Event) (c' : Component) : Prop where
  parts : c.parts <+: c'.parts
  entries : c.assignments.entries ⊆ c'.assignments.entries
  keys : c'.assignments.keys = c.assignments.keys ++ changes.filterMap Event.target?
  stored : ∀ target value, .given target value ∈ changes → ∃ stored, (target, stored) ∈ c'.assignments.entries ∧
    Holds c'.parts value stored

theorem Step.grows (h : Step c changes c') : Grows c changes c' := by
  cases h with
  | quiet hsame =>
    have hparts : c'.parts = c.parts := (congrArg Component.parts hsame :)
    have hassignments : c'.assignments = c.assignments := (congrArg Component.assignments hsame :)
    exact ⟨hparts ▸ prefix_rfl, by simp [hassignments], by simp [hassignments], by simp⟩
  | @value target value parts stored hnew hstored =>
    refine ⟨prefix_append _ _, ?_, ?_, ?_⟩
    · rw [Table.insert_of_not_mem hnew]
      exact subset_append_left _ _
    · rw [keys_insert_new hnew]
      rfl
    · intro _ _ hmem
      cases mem_singleton.mp hmem
      refine ⟨stored, ?_, _, parts, hstored, fun part hpart => ?_⟩
      rotate_left
      · rcases hstored.cases with ⟨rfl, -⟩ | ⟨_, -, rfl, -⟩
        · cases hpart
        · simp [mem_singleton.mp hpart]
      rw [Table.insert_of_not_mem hnew]
      exact mem_append_right _ (mem_singleton_self _)
  | _ => exact ⟨by simp, by simp, by simp [Event.target?], by simp⟩

theorem Steps.grows (h : Steps c changes c') : Grows c changes c' := by
  induction h with
  | refl => exact ⟨prefix_rfl, by simp, by simp, by simp⟩
  | step h => exact h.grows
  | trans _ _ ih ih' =>
    refine ⟨ih.parts.trans ih'.parts, fun _ h => ih'.entries (ih.entries h), ?_, fun target value hmem => ?_⟩
    · rw [ih'.keys, ih.keys, append_assoc, filterMap_append]
    · rcases mem_append.mp hmem with hmem | hmem
      · obtain ⟨stored, hentry, index, new, hstored, hnew⟩ := ih.stored target value hmem
        obtain ⟨more, hmore⟩ := ih'.parts
        refine ⟨stored, ih'.entries hentry, index, new, hstored, fun part hpart => ?_⟩
        rw [← hmore, getElem?_append_left (List.getElem?_eq_some_iff.mp (hnew part hpart)).1]
        exact hnew part hpart
      · exact ih'.stored target value hmem

/-- The properties that a declaration gives other than initial values. -/
def targets : Tree → List String
  | .property .. => []
  | child => (events child).filterMap Event.target?

/-- The declared properties with their initial values. -/
def declaredItems (c : Component) : List (Property × String × Tree) :=
  c.properties.flatMap fun p => p.items.map fun item => (p, item)

theorem map_name_declaredItems (c : Component) : c.declaredItems.map (·.2.1) = c.declaredProperties.map (·.1) := by
  simp [declaredItems, declaredProperties, map_flatMap, Function.comp_def]

theorem given_mem_events_iff {doc : Option String} {type target : String} {items : List (String × Tree)} :
    .given target value ∈ events (.property doc type items) ↔
      (target, value) ∈ items ∧ (type ≠ "lazy" ∧ type ≠ "const") ∧ isDeferred value = true := by
  have hitem : ∀ item, .given target value ∈ itemEvents { doc, type, items } item ↔
      item = (target, value) ∧ (type ≠ "lazy" ∧ type ≠ "const") ∧ isDeferred value = true := by
    rintro ⟨name, initial⟩
    grind [itemEvents, Property.isLazy, Property.isConst]
  simp [events, hitem]

section Initial

variable {name base type : String} {prototype : Bool} {doc : Option String} {items : List (String × Tree)}
  (hbuild : addAll { name, base, prototype } body = .ok c)

include hbuild

theorem mem_declaredItems (hproperty : .property doc type items ∈ body) {item : String × Tree} (hitem : item ∈ items) :
    (({ doc, type, items } : Property), item) ∈ c.declaredItems := by
  refine mem_flatMap.mpr ⟨_, ?_, mem_map_of_mem hitem⟩
  rw [(addAll_steps hbuild).declares.1]
  exact mem_append_right _ (mem_filterMap.mpr ⟨_, mem_flatMap.mpr ⟨_, hproperty, mem_cons_self⟩, rfl⟩)

theorem nodup_declaredItems : (c.declaredItems.map (·.2.1)).Nodup := by
  have hbuilt : IsBuilt c := ⟨_, _, _, _, hbuild⟩
  rw [map_name_declaredItems, ← hbuilt.declared]
  exact (nodup_append'.mp (nodup_append'.mp hbuilt.complete.names).1).1

/-- A property with a trivial initial value has another only if it is given one. -/
theorem mem_keys_iff_of_trivial (hproperty : .property doc type items ∈ body) (hitem : (key, value) ∈ items)
    (htrivial : isTrivialValue value = .ok true) :
    key ∈ c.assignments.keys ↔ ∃ child ∈ body, key ∈ targets child := by
  have hkeys : key ∈ c.assignments.keys ↔ ∃ child ∈ body, key ∈ (events child).filterMap Event.target? := by
    rw [(addAll_steps hbuild).grows.keys, filterMap_flatMap]
    simp [Table.keys]
  rw [hkeys]
  refine exists_congr fun child => and_congr_right fun hchild => ?_
  cases child with
  | property doc' type' items' =>
    refine iff_of_false (fun hmem => ?_) (by simp [targets])
    obtain ⟨event, hevent, htarget⟩ := mem_filterMap.mp hmem
    cases event with
    | declared | named => cases htarget
    | given target initial =>
      cases htarget
      obtain ⟨hinitial, -, hdeferred⟩ := given_mem_events_iff.mp hevent
      have heq := inj_on_of_nodup_map (nodup_declaredItems hbuild) (mem_declaredItems hbuild hproperty hitem)
        (mem_declaredItems hbuild hchild hinitial) rfl
      obtain rfl : value = initial := congrArg (·.2.2) heq
      cases value with
      | plain value => cases value <;> simp_all [isDeferred, Except.toOption]
      | _ => cases htrivial
  | _ => rfl

theorem exists_stored_of_initial (hproperty : .property doc type items ∈ body) (hitem : (key, value) ∈ items)
    (htype : type ≠ "lazy" ∧ type ≠ "const") (hvalue : value ≠ .absent) (htrivial : isTrivialValue value = .ok false) :
    ∃ stored, (key, stored) ∈ c.assignments.entries ∧ Holds c.parts value stored := by
  have hdeferred : isDeferred value = true := by
    unfold isDeferred
    split
    · exact absurd rfl hvalue
    · rw [htrivial]
      rfl
  exact (addAll_steps hbuild).grows.stored key value
    (mem_flatMap.mpr ⟨_, hproperty, given_mem_events_iff.mpr ⟨hitem, htype, hdeferred⟩⟩)

end Initial

end QmlScript.Component

namespace QmlScript.Registry

open List Component

/-! ## What is written once -/

/-- One item has the key of `x`, and its text has one place in the output. -/
def WrittenOnce {α β : Type} (key : α → String) (write : α → Option β) (items : List α) (x : α) (y : β)
    (output : List β) : Prop :=
  ∃ front back before after, items = front ++ x :: back ∧ (∀ other ∈ front ++ back, key other ≠ key x) ∧
    front.mapM write = some before ∧ write x = some y ∧ back.mapM write = some after ∧ output = before ++ y :: after

theorem exists_writtenOnce {α β : Type} {key : α → String} {write : α → Option β} {items : List α} {x : α}
    {output : List β} (h : items.mapM write = some output) (hkeys : (items.map key).Nodup) (hx : x ∈ items) :
    ∃ y, WrittenOnce key write items x y output := by
  obtain ⟨front, back, rfl⟩ := append_of_mem hx
  rw [mapM_append, mapM_cons] at h
  obtain ⟨before, hbefore, h⟩ := Option.bind_eq_some_iff.mp h
  obtain ⟨rest, hrest, h⟩ := Option.bind_eq_some_iff.mp h
  obtain ⟨y, hy, hrest⟩ := Option.bind_eq_some_iff.mp hrest
  obtain ⟨after, hafter, hrest⟩ := Option.bind_eq_some_iff.mp hrest
  cases hrest
  cases h
  refine ⟨y, front, back, before, after, rfl, fun other hother heq => ?_, hbefore, hy, hafter, rfl⟩
  rw [map_append, map_cons, nodup_middle, ← map_append, nodup_cons, ← heq] at hkeys
  exact hkeys.1 (mem_map_of_mem hother)

theorem mapM_flatten {m : Type → Type} [Monad m] [LawfulMonad m] {α β γ : Type} (f : α → β → m γ) (g : α → List β)
    (as : List α) :
    (do return (← as.mapM fun a => (g a).mapM (f a)).flatten) =
      (as.flatMap fun a => (g a).map fun b => (a, b)).mapM fun p => f p.1 p.2 := by
  induction as with
  | nil => simp
  | cons a as ih =>
    rw [flatMap_cons, mapM_append, ← ih, mapM_map]
    simp [Function.comp_def]

variable {c d : Component} {r s : Registry} {object parent closure : String} {indent lineIndent : Nat}

theorem propertyLines_eq (parts : List Part) :
    propertyLines c parts object indent lineIndent = c.declaredItems.mapM fun item =>
      propertyLine c parts object indent lineIndent item.1 item.2.1 item.2.2 := by
  unfold propertyLines declaredItems
  generalize propertyLine c parts object indent lineIndent = line
  exact mapM_flatten (fun p item => line p item.1 item.2) Property.items c.properties

/-- The call that declares a property, maybe with an initial value. -/
def addProperty (object type name : String) (indent : Nat) (default : Option String) : String :=
  tabs indent ++ "core.addProperty(" ++
    ", ".intercalate ([object, "'" ++ type ++ "'", "'" ++ name ++ "'"] ++ default.toList) ++ ")"

/-- The initial value in the call that declares a property: trivial, or none. -/
def HasDefault (c : Component) (r : Registry) (value : Tree) : Option String → Prop
  | none => isTrivialValue value = .ok false
  | some script => isTrivialValue value = .ok true ∧ ∃ text, value = .text text ∧
      (run (Script.dependencies "@error" text (pathRoot c none)) r).1 = .ok (script, [])

theorem hasDefault_of_answer {value : Tree} {default : Option String}
    (h : answer r (trivialDefault c value) = some default) : HasDefault c r value default := by
  unfold trivialDefault at h
  cases htrivial : isTrivialValue value with
  | error e =>
    rw [htrivial] at h
    cases h
  | ok trivial =>
    rw [htrivial] at h
    cases trivial with
    | false =>
      cases h
      exact htrivial
    | true =>
      cases value with
      | plain value =>
        cases value with
        | str text =>
          simp only [check, pure_bind, if_true] at h
          obtain ⟨⟨script, deps⟩, s, hscript, h⟩ := exists_of_answer_bind h
          cases deps with
          | nil =>
            cases h
            exact ⟨htrivial, text, rfl, answer_eq_some.mp hscript⟩
          | cons => cases h
        | _ => cases h
      | _ => cases h

variable {p : Property} {key : String} {value : Tree} {lines : List String} {text : String}

/-- The text declares the property in one place, in the lines for all properties. -/
def DeclaredOnce (c : Component) (r : Registry) (object : String) (indent lineIndent : Nat) (p : Property)
    (key : String) (value : Tree) (text : String) : Prop :=
  ∃ front lines back default, text = "\n".intercalate (front ++ lines ++ back) ∧ HasDefault c r value default ∧
    WrittenOnce (fun item => item.2.1) (fun item =>
        answer r (propertyLine c (emitParts c.parts) object indent lineIndent item.1 item.2.1 item.2.2))
      c.declaredItems (p, key, value) (addProperty object p.type key lineIndent default) lines

section Declared

variable (hkeys : (c.declaredItems.map (·.2.1)).Nodup) (hitem : (p, key, value) ∈ c.declaredItems)
  (hlazy : p.isLazy = false) (hconst : p.isConst = false)

include hkeys hitem hlazy hconst

theorem declaredOnce_of_lines (h : answer r (propertyLines c (emitParts c.parts) object indent lineIndent) = some lines)
    (front back : List String) :
    DeclaredOnce c r object indent lineIndent p key value ("\n".intercalate (front ++ lines ++ back)) := by
  rw [propertyLines_eq, answer_mapM] at h
  obtain ⟨line, hline⟩ := exists_writtenOnce h hkeys hitem
  obtain ⟨_, _, _, _, -, -, -, hwrite, -⟩ := id hline
  simp only [propertyLine, hlazy, hconst, Bool.false_eq_true, if_false] at hwrite
  rw [answer_bind] at hwrite
  obtain ⟨default, hdefault, hwrite⟩ := Option.bind_eq_some_iff.mp hwrite
  cases hwrite
  exact ⟨front, lines, back, default, rfl, hasDefault_of_answer hdefault, hline⟩

theorem declaredOnce_of_prototypeText (h : answer r (prototypeText c indent) = some text) :
    DeclaredOnce c r c.protoName indent indent p key value text := by
  obtain ⟨hproto, methods, handlers, hprepared⟩ := prepared_of_prototypeText h
  obtain ⟨front, block, lines, created, settled, hfront, -, -, -, -, rfl⟩ := hprepared.answer_prototypeText hproto h
  unfold prototypeFront at hfront
  rw [answer_bind] at hfront
  obtain ⟨declared, hdeclared, hfront⟩ := Option.bind_eq_some_iff.mp hfront
  cases hfront
  rw [append_assoc (_ ++ declared), append_assoc (_ ++ declared), append_assoc (_ ++ declared)]
  exact declaredOnce_of_lines hkeys hitem hlazy hconst hdeclared _ _

theorem declaredOnce_of_creators (hpart : c.prototype = false)
    (h : answer r ((emitter c).creators parent closure indent) = some text) :
    DeclaredOnce c r parent indent 1 p key value text := by
  rw [emitter_eq] at h
  simp only [creators, hpart, Bool.false_eq_true, if_false] at h
  obtain ⟨declarations, s, hdeclarations, h⟩ := exists_of_answer_bind h
  obtain ⟨children, s, -, h⟩ := exists_of_answer_bind h
  obtain ⟨values, s, -, h⟩ := exists_of_answer_bind h
  obtain ⟨aliases, s, -, h⟩ := exists_of_answer_bind h
  cases h
  obtain ⟨declared, s, hdeclared, hdeclarations⟩ := exists_of_answer_bind hdeclarations
  dsimp only at hdeclarations
  cases hchoices : c.choices.keys with
  | cons =>
    rw [hchoices] at hdeclarations
    cases hdeclarations
  | nil =>
    cases hconstants : c.constants.keys with
    | cons =>
      rw [hchoices, hconstants] at hdeclarations
      cases hdeclarations
    | nil =>
      rw [hchoices, hconstants] at hdeclarations
      cases hdeclarations
      rw [append_assoc (_ ++ declared), append_assoc (_ ++ declared)]
      exact declaredOnce_of_lines hkeys hitem hlazy hconst hdeclared _ _

end Declared

/-- A property is set up by its value, or by the part that is its value. -/
inductive SetsUp (c : Component) (r : Registry) (parent closure : String) (indent : Nat) (key : String) :
    Assigned → List String → Prop
  | text {value : String} {lines : List String} (h : answer r (assignText c parent indent key value) = some lines) :
      SetsUp c r parent closure indent key (.text value) lines
  | part {index : Nat} {part : Part} {line : String} (hpart : (emitParts c.parts)[index]? = some part)
      (h : answer r (callSetup indent (valueVariable parent key) closure part) = some line) :
      SetsUp c r parent closure indent key (.part index) [line]

/-- The text gives the value to the property in one place, if it is no identifier or delegate. -/
def SetUpOnce (c : Component) (r : Registry) (parent closure : String) (indent : Nat) (key : String)
    (stored : Assigned) (text : String) : Prop :=
  ∃ outputs lines back, text = "\n".intercalate (outputs.flatten ++ back) ∧
    WrittenOnce (fun entry => entry.1) (fun entry =>
        answer r (setupValue c (emitParts c.parts) parent closure indent entry.1 entry.2))
      c.assignments.entries (key, stored) lines outputs ∧
    if key = "id" ∨ key = "delegate" ∧ (partIndex? stored).isSome then lines = []
    else SetsUp c r parent closure indent key stored lines

theorem setUpOnce_of_setup (hkeys : c.assignments.keys.Nodup) {stored : Assigned}
    (hentry : (key, stored) ∈ c.assignments.entries)
    (h : answer r ((emitter c).setup parent closure indent) = some text) :
    SetUpOnce c r parent closure indent key stored text := by
  obtain ⟨front, attached, back, hfront, -, rfl, -⟩ := answer_setup h
  rw [setupFront, answer_bind, answer_mapM] at hfront
  obtain ⟨outputs, houtputs, hfront⟩ := Option.bind_eq_some_iff.mp hfront
  cases hfront
  obtain ⟨lines, hlines⟩ := exists_writtenOnce houtputs hkeys hentry
  refine ⟨outputs, lines, attached ++ back, by rw [append_assoc], hlines, ?_⟩
  obtain ⟨_, _, _, _, -, -, -, hwrite, -⟩ := hlines
  by_cases hid : key = "id"
  · simp only [setupValue, hid, if_true] at hwrite
    rw [if_pos (.inl hid)]
    exact (Option.some.inj hwrite).symm
  · simp only [setupValue, if_neg hid] at hwrite
    cases stored with
    | text value =>
      rw [if_neg (by simp [hid, partIndex?])]
      exact .text hwrite
    | part index =>
      by_cases hdelegate : key = "delegate"
      · simp only [hdelegate, if_true] at hwrite
        rw [if_pos (.inr ⟨hdelegate, rfl⟩)]
        exact (Option.some.inj hwrite).symm
      · simp only [if_neg hdelegate] at hwrite
        rw [if_neg (by simp [hid, hdelegate])]
        unfold partAt at hwrite
        cases hpart : (emitParts c.parts)[index]? with
        | none =>
          rw [hpart] at hwrite
          cases hwrite
        | some part =>
          rw [hpart, pure_bind] at hwrite
          obtain ⟨line, s, hline, hwrite⟩ := exists_of_answer_bind hwrite
          cases hwrite
          exact .part hpart hline
    | other value => cases value <;> cases hwrite

theorem tables_of_prepared {r' : Registry} (h : prepareComponent c r = ((d, none), r')) :
    d.properties = c.properties ∧ d.assignments = c.assignments := by
  have hbare := bare_of_prepared h
  rw [bare_eq, bare_eq] at hbare
  exact ⟨(congrArg Component.properties hbare :), (congrArg Component.assignments hbare :)⟩

/-- A property that is neither lazy nor constant is declared by one call. Its initial value is an argument of
this call if it is trivial, and then the property has no other value unless some declaration gives it one;
otherwise it is stored, and set up once. -/
theorem initial_value_given_once {name base type key : String} {prototype : Bool} {body : List Tree} {c d : Component}
    {r r' : Registry} {doc : Option String} {items : List (String × Tree)} {value : Tree}
    (hbuild : addAll { name, base, prototype } body = .ok c) (hprepare : prepareComponent c r = ((d, none), r'))
    (hproperty : .property doc type items ∈ body) (hitem : (key, value) ∈ items)
    (htype : type ≠ "lazy" ∧ type ≠ "const") (hvalue : value ≠ .absent) :
    (∀ s indent text, (run (prototypeText d indent) s).1 = .ok text →
      DeclaredOnce d s d.protoName indent indent { doc, type, items } key value text) ∧
    (∀ s parent closure indent text, d.prototype = false →
      (run ((emitter d).creators parent closure indent) s).1 = .ok text →
      DeclaredOnce d s parent indent 1 { doc, type, items } key value text) ∧
    (isTrivialValue value = .ok true → (key ∈ c.assignments.keys ↔ ∃ child ∈ body, key ∈ targets child)) ∧
    (isTrivialValue value = .ok false → ∃ stored, (key, stored) ∈ c.assignments.entries ∧
      Holds c.parts value stored ∧ ∀ s parent closure indent text,
        (run ((emitter d).setup parent closure indent) s).1 = .ok text →
        SetUpOnce d s parent closure indent key stored text) := by
  obtain ⟨hproperties, hassignments⟩ := tables_of_prepared hprepare
  have hitems : d.declaredItems = c.declaredItems := by rw [declaredItems, hproperties, declaredItems]
  have hkeys := nodup_declaredItems hbuild
  have hmem := mem_declaredItems hbuild hproperty hitem
  rw [← hitems] at hkeys hmem
  have hlazy : ({ doc, type, items } : Property).isLazy = false := decide_eq_false htype.1
  have hconst : ({ doc, type, items } : Property).isConst = false := decide_eq_false htype.2
  refine ⟨fun s indent text h => ?_, fun s parent closure indent text hpart h => ?_,
    mem_keys_iff_of_trivial hbuild hproperty hitem, fun htrivial => ?_⟩
  · exact declaredOnce_of_prototypeText hkeys hmem hlazy hconst (answer_eq_some.mpr h)
  · exact declaredOnce_of_creators hkeys hmem hlazy hconst hpart (answer_eq_some.mpr h)
  · obtain ⟨stored, hentry, hholds⟩ := exists_stored_of_initial hbuild hproperty hitem htype hvalue htrivial
    refine ⟨stored, hentry, hholds, fun s parent closure indent text h => ?_⟩
    have hnodup := (IsBuilt.complete ⟨_, _, _, _, hbuild⟩).assignments
    rw [← hassignments] at hentry hnodup
    exact setUpOnce_of_setup hnodup hentry (answer_eq_some.mpr h)

def withInitialValues : List Tree :=
  [.property none "int" [("width", .text "7")], .property none "var" [("header", emptyPart)]]

set_option maxRecDepth 100000

theorem initial_value_given_once_header :
    ∃ c d r stored settled s,
      addAll { name := "ui.Card", base := "CoreObject", prototype := true } withInitialValues = .ok c ∧
      prepareComponent c blank = ((d, none), r) ∧ isTrivialValue (.text "7") = .ok true ∧ "width" ∉ c.assignments.keys ∧
      ("header", stored) ∈ c.assignments.entries ∧ run ((emitter d).setup "$this" "$c" 3) blank = (.ok settled, s) ∧
      SetUpOnce d blank "$this" "$c" 3 "header" stored settled := by
  obtain ⟨c, d, r, hbuild, hprepare, -, -, settled, s, hsettled⟩ := exists_of_isWritten
    (by decide +kernel : isWritten (fun _ => true) (.component none "CoreObject" withInitialValues) = true)
  have htrivial : isTrivialValue (.text "7") = .ok true := by rfl
  obtain ⟨-, -, hwidth, -⟩ := initial_value_given_once hbuild hprepare mem_cons_self (mem_singleton_self _)
    (by decide) (by simp [Node.text, Node.absent])
  obtain ⟨-, -, -, hheader⟩ := initial_value_given_once hbuild hprepare (mem_cons_of_mem _ mem_cons_self)
    (mem_singleton_self _) (by decide) (by simp [emptyPart, Node.absent])
  obtain ⟨stored, hentry, -, honce⟩ := hheader rfl
  refine ⟨c, d, r, stored, settled, s, hbuild, hprepare, htrivial, ?_, hentry, hsettled,
    honce _ _ _ _ _ (congrArg Prod.fst hsettled)⟩
  rw [hwidth htrivial]
  simp [withInitialValues, targets]

def withDelegate : Tree := .component none "CoreObject" [.property none "var" [("delegate", emptyPart)]]

/-- A delegate is stored as the value of its property, but nothing sets it up. -/
theorem delegate_not_set_up :
    ∃ c d r index, Component.build "ui.Card" true withDelegate = .ok c ∧ prepareComponent c blank = ((d, none), r) ∧
      d.assignments.entries = [("delegate", .part index)] ∧
      ∀ parent closure indent, setupFront d (emitParts d.parts) parent closure indent = pure [] := by
  let check (c : Component) : Bool :=
    c.assignments.entries.map (fun entry => (entry.1, partIndex? entry.2)) = [("delegate", some 0)]
  obtain ⟨c, d, r, hbuild, hprepare, hcheck, -⟩ :=
    exists_of_isWritten (by decide +kernel : isWritten check withDelegate = true)
  obtain ⟨⟨key, stored⟩, hentries, heq⟩ := map_eq_singleton_iff.mp (of_decide_eq_true hcheck)
  cases stored with
  | part index =>
    cases heq
    rw [← (tables_of_prepared hprepare).2] at hentries
    refine ⟨c, d, r, 0, hbuild, hprepare, hentries, fun parent closure indent => ?_⟩
    rw [setupFront, hentries]
    rfl
  | _ => cases heq

end QmlScript.Registry
