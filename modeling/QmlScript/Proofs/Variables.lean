import Mathlib.Data.List.Pairwise
import QmlScript.Proofs.AttachedOnce
import QmlScript.Proofs.Closure

/-!
# The variables of a program

All sections of a program stand in one function, and each declares four variables there, named after the type
without its package. Two sections share a variable exactly if the names of their types are equal, or differ by
`Base` at the end; the later one then counts when creators run.
-/

namespace QmlScript.Registry

open List

variable {text name : String} {c : Component} {r r' P : Registry}

/-- The variables of the section of a type, for its name in scripts. -/
def variablesOf (className : String) : List String :=
  [className ++ "BaseComponent", className ++ "BasePrototype", className ++ "Component",
    className ++ "Prototype"]

def Apart (a b : String) : Prop := a ≠ b ∧ a ≠ b ++ "Base" ∧ b ≠ a ++ "Base"

instance (a b : String) : Decidable (Apart a b) := inferInstanceAs (Decidable (_ ∧ _ ∧ _))

theorem nodup_variablesOf (a : String) : (variablesOf a).Nodup := by
  simp [variablesOf]

theorem append_component_ne_append_prototype (a b : String) : a ++ "Component" ≠ b ++ "Prototype" := by
  intro h
  have hlast := congrArg (fun s => s.toList.getLast?) h
  simp [getLast?_append] at hlast

theorem mem_variablesOf (a x : String) :
    x ∈ variablesOf a ↔ ∃ stem, (stem = a ∨ stem = a ++ "Base") ∧
      (x = stem ++ "Component" ∨ x = stem ++ "Prototype") := by
  have hc : a ++ "BaseComponent" = a ++ "Base" ++ "Component" := by
    rw [String.append_assoc, show "Base" ++ "Component" = "BaseComponent" by decide]
  have hp : a ++ "BasePrototype" = a ++ "Base" ++ "Prototype" := by
    rw [String.append_assoc, show "Base" ++ "Prototype" = "BasePrototype" by decide]
  simp only [variablesOf, hc, hp, mem_cons, not_mem_nil, or_false]
  constructor
  · rintro (rfl | rfl | rfl | rfl)
    · exact ⟨_, .inr rfl, .inl rfl⟩
    · exact ⟨_, .inr rfl, .inr rfl⟩
    · exact ⟨_, .inl rfl, .inl rfl⟩
    · exact ⟨_, .inl rfl, .inr rfl⟩
  · rintro ⟨stem, rfl | rfl, rfl | rfl⟩ <;> simp

theorem disjoint_variablesOf_iff (a b : String) : (variablesOf a).Disjoint (variablesOf b) ↔ Apart a b := by
  constructor
  · intro h
    have hstem : ∀ stem, (stem = a ∨ stem = a ++ "Base") → (stem = b ∨ stem = b ++ "Base") → False :=
      fun stem ha hb => h ((mem_variablesOf a _).mpr ⟨stem, ha, .inl rfl⟩)
        ((mem_variablesOf b _).mpr ⟨stem, hb, .inl rfl⟩)
    exact ⟨fun heq => hstem a (.inl rfl) (.inl heq), fun heq => hstem a (.inl rfl) (.inr heq),
      fun heq => hstem b (.inr heq) (.inl rfl)⟩
  · rintro ⟨hne, hleft, hright⟩ x ha hb
    obtain ⟨s, hs, hxs⟩ := (mem_variablesOf a x).mp ha
    obtain ⟨t, ht, hxt⟩ := (mem_variablesOf b x).mp hb
    have hst : s = t := by
      rcases hxs with rfl | rfl <;> rcases hxt with hx | hx
      · exact (String.append_left_inj _).mp hx
      · exact absurd hx (append_component_ne_append_prototype s t)
      · exact absurd hx.symm (append_component_ne_append_prototype t s)
      · exact (String.append_left_inj _).mp hx
    subst hst
    rcases hs with rfl | rfl <;> rcases ht with heq | heq
    · exact hne heq
    · exact hleft heq
    · exact hright heq.symm
    · exact hne ((String.append_left_inj _).mp heq)

def declaration (var value : String) : String := "\tvar " ++ var ++ " = " ++ value

/-- A text that declares the given variables one after the other. -/
def Declares : List (String × String) → String → Prop
  | [], _ => True
  | (var, value) :: others, text =>
    ∃ before after, text = before ++ declaration var value ++ after ∧ Declares others after

theorem Declares.nil (text : String) : Declares [] text := trivial

theorem Declares.cons {others : List (String × String)} {after : String} (var value : String)
    (h : Declares others after) :
    Declares ((var, value) :: others) (declaration var value ++ after) := ⟨"", after, by rw [String.empty_append], h⟩

theorem Declares.append {declared : List (String × String)} (h : Declares declared text) (before : String) :
    Declares declared (before ++ text) := by
  cases declared with
  | nil => trivial
  | cons first others =>
    obtain ⟨start, after, rfl, hothers⟩ := h
    exact ⟨before ++ start, after, by simp only [String.append_assoc], hothers⟩

/-- The variables of a type with their texts, for the base in its package. -/
def declarationsOf (c : Component) (base : String) : List (String × String) := [
  (c.baseLocalName, base ++ "\n"),
  (c.baseProtoName, c.baseLocalName ++ ".prototype\n"),
  (c.localName, c.mangledName ++ " = function(parent, row) \x7b\n\t\t" ++ c.baseLocalName ++
    ".apply(this, arguments)\n"),
  (c.protoName, c.localName ++ ".prototype = Object.create(" ++ c.baseProtoName ++ ")\n")]

theorem intercalate_cons_extends (sep line : String) (lines : List String) :
    ∃ after, sep.intercalate (line :: lines) = line ++ after := by
  cases lines with
  | nil => exact ⟨"", by simp⟩
  | cons next lines => exact ⟨sep ++ sep.intercalate (next :: lines), by simp [String.append_assoc]⟩

theorem protoDeclaration_eq (proto value base : String) :
    tabs 1 ++ "var " ++ proto ++ " = " ++ value ++ ".prototype = Object.create(" ++ base ++ ")\n" =
      declaration proto (value ++ ".prototype = Object.create(" ++ base ++ ")\n") := by
  rw [show tabs 1 ++ "var " = "\tvar " by decide, declaration]
  simp only [String.append_assoc]

theorem prototypeFront_declares {front : List String} (h : answer r (prototypeFront c 1) = some front) :
    ∃ others, front = declaration c.protoName
      (c.localName ++ ".prototype = Object.create(" ++ c.baseProtoName ++ ")\n") :: others := by
  obtain ⟨properties, s, -, h⟩ := exists_of_answer_bind h
  obtain rfl := Option.some.inj h
  rw [← protoDeclaration_eq]
  exact ⟨_, rfl⟩

theorem prototypeText_declares (h : run (prototypeText c 1) r = (.ok text, r')) :
    ∃ after, text = declaration c.protoName
      (c.localName ++ ".prototype = Object.create(" ++ c.baseProtoName ++ ")\n") ++ after := by
  have htext : answer r (prototypeText c 1) = some text := answer_eq_some.mpr (Prod.mk.inj h).1
  obtain ⟨hproto, methods, handlers, hprepared⟩ := prepared_of_prototypeText htext
  obtain ⟨front, _, _, _, _, hfront, -, -, -, -, rfl⟩ := hprepared.answer_prototypeText hproto htext
  obtain ⟨others, rfl⟩ := prototypeFront_declares hfront
  exact intercalate_cons_extends _ _ _

theorem constructorText_declares (h : run (constructorText c) r = (.ok text, r')) :
    ∃ base docs, run (mangledBaseOf c) r = (.ok base, r') ∧
      text = declaration c.baseLocalName (base ++ "\n") ++
        declaration c.baseProtoName (c.baseLocalName ++ ".prototype\n") ++ docs ++
        declaration c.localName (c.mangledName ++ " = function(parent, row) \x7b\n\t\t" ++
          c.baseLocalName ++ ".apply(this, arguments)\n") ++ (c.ctor ++ "\n\t\x7d\n") := by
  unfold constructorText at h
  obtain ⟨base, s, hbase, h₁⟩ := run_bind_ok h
  obtain ⟨htext, rfl⟩ := Prod.mk.inj h₁
  refine ⟨base, "\n/**\n * @constructor\n * @extends \x7b" ++ base ++ "\x7d\n */\n", hbase, ?_⟩
  rw [← Except.ok.inj htext]
  apply String.toList_injective
  simp [declaration, Component.mangledName]

theorem sectionText_declares (h : run (sectionText c) r = (.ok text, r')) :
    ∃ base s, run (mangledBaseOf c) (r.usePackage c.package) = (.ok base, s) ∧
      Declares (declarationsOf c base) text := by
  unfold sectionText at h
  rw [run_bind, run_modify] at h
  obtain ⟨ctor, r₁, hctor, h₁⟩ := run_bind_ok h
  obtain ⟨proto, r₂, hproto, h₂⟩ := run_bind_ok h₁
  obtain ⟨base, docs, hbase, rfl⟩ := constructorText_declares hctor
  obtain ⟨after, rfl⟩ := prototypeText_declares hproto
  refine ⟨base, r₁, hbase, ?_⟩
  rw [← Except.ok.inj (Prod.mk.inj h₂).1, declarationsOf]
  have hprotoVar := Declares.cons c.protoName
    (c.localName ++ ".prototype = Object.create(" ++ c.baseProtoName ++ ")\n") (Declares.nil after)
  have hlocal := (hprotoVar.append (c.ctor ++ "\n\t\x7d\n")).cons c.localName
    (c.mangledName ++ " = function(parent, row) \x7b\n\t\t" ++ c.baseLocalName ++ ".apply(this, arguments)\n")
  have hbaseProto := (hlocal.append docs).cons c.baseProtoName (c.baseLocalName ++ ".prototype\n")
  have hall := (hbaseProto.cons c.baseLocalName (base ++ "\n")).append
    ("\n\n//=====[component " ++ c.name ++ "]=====================\n\n")
  simp only [String.append_assoc] at hall ⊢
  exact hall

theorem mangledBaseOf_baseOf {s : Registry} {base : String} (hpackages : r.packages = s.packages)
    (h : run (mangledBaseOf c) r = (.ok base, r')) :
    ∃ package name, base = Package.mangle package ++ "." ++ name ∧
      (run (baseOf c) s).1 = .ok (package ++ "." ++ name) := by
  have hmeant : s.meant c.package c.base = r.meant c.package c.base := by
    simp only [meant, candidates, hpackages]
  rw [mangledBaseOf, findMangled, run_find] at h
  rw [baseOf, run_find, hmeant]
  split at h
  · rename_i hroot
    rw [if_pos hroot]
    exact ⟨rootPackage, rootName, (Except.ok.inj (Prod.mk.inj h).1).symm, rfl⟩
  · rename_i hroot
    rw [if_neg hroot]
    split at h
    · cases h
    · rename_i package _
      exact ⟨package, _, (Except.ok.inj (Prod.mk.inj h).1).symm, rfl⟩

/-- What a variable stands for: the constructor or the prototype of a type. -/
inductive Referent where
  | constructor (name : String)
  | prototype (name : String)
deriving DecidableEq

def classNameAt (P : Registry) (name : String) : String :=
  ((P.components.get? name).map Component.className).getD ""

def variablesAt (P : Registry) (name : String) : List String := variablesOf (classNameAt P name)

/-- The variables of a section with what they stand for, given the base. -/
def bindingsAt (P : Registry) (name : String) : List (String × Referent) :=
  match (baseRun P name).1 with
  | .ok base => (variablesAt P name).zip
      [.constructor base, .prototype base, .constructor name, .prototype name]
  | .error _ => []

/-- The common scope when all sections have been evaluated in order. -/
def scope (P : Registry) (order : List String) : Table String Referent :=
  Table.ofList (order.flatMap (bindingsAt P))

/-- The section declares the variables of its type, the first for its base. -/
def DeclaresVariables (P : Registry) (name : String) : Prop :=
  ∃ c package type, P.components.get? name = some c ∧ (baseRun P name).1 = .ok (package ++ "." ++ type) ∧
    Declares (declarationsOf c (Package.mangle package ++ "." ++ type)) (sectionOf P name)

theorem declaresVariables_of_run (h : (sectionRun P name).1 = .ok (sectionOf P name)) : DeclaresVariables P name := by
  have hrun : sectionRun P name = (.ok (sectionOf P name), (sectionRun P name).2) := Prod.ext h rfl
  unfold sectionRun at hrun
  obtain ⟨c, s, hc, hsection⟩ := run_bind_ok hrun
  obtain ⟨hget, rfl⟩ := run_component_ok hc
  obtain ⟨mangled, t, hbase, hdeclares⟩ := sectionText_declares hsection
  obtain ⟨package, type, rfl, hfull⟩ :=
    mangledBaseOf_baseOf (s := P.unmarked) (r := P.unmarked.usePackage c.package) rfl hbase
  exact ⟨c, package, type, hget, by rw [baseRun, run_component_bind hget]; exact hfull, hdeclares⟩

theorem nodup_variables_iff {order : List String} (hn : order.Nodup) :
    (order.flatMap (variablesAt P)).Nodup ↔
      ∀ a ∈ order, ∀ b ∈ order, a ≠ b → Apart (classNameAt P a) (classNameAt P b) := by
  rw [nodup_flatMap]
  constructor
  · rintro ⟨_, hpairs⟩ a ha b hb hab
    have : Std.Symm (Function.onFun List.Disjoint (variablesAt P)) := ⟨fun _ _ h _ hb ha => h ha hb⟩
    exact (disjoint_variablesOf_iff _ _).mp (hpairs.forall ha hb hab)
  · intro h
    refine ⟨fun name _ => nodup_variablesOf _, hn.pairwise_of_forall_ne fun a ha b hb hab => ?_⟩
    exact (disjoint_variablesOf_iff _ _).mpr (h a ha b hb hab)

theorem bindingsAt_fst {base : String} (h : (baseRun P name).1 = .ok base) :
    (bindingsAt P name).map (·.1) = variablesAt P name := by
  simp only [bindingsAt, h]
  rfl

/-- Variables declared once stand for what their sections bound. -/
theorem scope_get? {order : List String} (hbase : ∀ name ∈ order, ∃ base, (baseRun P name).1 = .ok base)
    (hn : (order.flatMap (variablesAt P)).Nodup) {var : String} {referent : Referent} (hname : name ∈ order)
    (h : (var, referent) ∈ bindingsAt P name) :
    (scope P order).get? var = some referent := by
  have hfst : (order.flatMap (bindingsAt P)).map (·.1) = order.flatMap (variablesAt P) := by
    rw [map_flatMap]
    refine flatMap_congr fun other ho => ?_
    obtain ⟨base, hb⟩ := hbase other ho
    exact bindingsAt_fst hb
  exact Table.get?_ofList (hfst ▸ hn) (mem_flatMap.mpr ⟨name, hname, h⟩)

/-- The variables of a base stand for it in the evaluated program. -/
def RefersToBase (P : Registry) (order : List String) (name : String) : Prop :=
  ∃ base, (baseRun P name).1 = .ok base ∧
    (scope P order).get? (classNameAt P name ++ "BaseComponent") = some (.constructor base) ∧
    (scope P order).get? (classNameAt P name ++ "BasePrototype") = some (.prototype base)

/-- The sections of a program share no variable exactly if the names of the types are pairwise apart, and
then each section keeps its own base. -/
theorem generateComponents_variables {start : Registry} {text : String}
    (h : (run generateComponents start).1 = .ok text) :
    ∃ P order, run prepareProgram start = (.ok (), P) ∧ emitted P = .ok order ∧ order.Nodup ∧
      text = String.join (order.map (sectionOf P)) ∧ (∀ name ∈ order, DeclaresVariables P name) ∧
      ((order.flatMap (variablesAt P)).Nodup ↔
        ∀ a ∈ order, ∀ b ∈ order, a ≠ b → Apart (classNameAt P a) (classNameAt P b)) ∧
      ((order.flatMap (variablesAt P)).Nodup → ∀ name ∈ order, RefersToBase P order name) := by
  obtain ⟨P, sections, order, hprep, hemitted, hp, ho, rfl⟩ := generateComponents_ok h
  have hc := hp.contains hprep ho
  have hdeclares : ∀ name ∈ order, DeclaresVariables P name :=
    fun name hn => declaresVariables_of_run (hc.generated name hn)
  have hbase : ∀ name ∈ order, ∃ base, (baseRun P name).1 = .ok base := by
    intro name hn
    obtain ⟨_, package, type, _, hb, _⟩ := hdeclares name hn
    exact ⟨_, hb⟩
  refine ⟨P, order, hprep, hemitted, hc.nodup, hc.text_eq, hdeclares, nodup_variables_iff hc.nodup, ?_⟩
  intro hn name hname
  obtain ⟨base, hb⟩ := hbase name hname
  refine ⟨base, hb, scope_get? hbase hn hname ?_, scope_get? hbase hn hname ?_⟩ <;>
    simp [bindingsAt, hb, variablesAt, variablesOf]

def galleryOrder : List String := ["core.Context", "ui.Item", "app.UiMain", "ui.Timer", "ui.Label"]

set_option maxRecDepth 100000

/-- The names of the types in `gallery` are apart. -/
theorem gallery_refersToBase :
    ∃ text, (run generateComponents gallery).1 = .ok text ∧
      ∀ name ∈ galleryOrder, RefersToBase (run prepareProgram gallery).2 galleryOrder name := by
  obtain ⟨text, h⟩ : ∃ text, (run generateComponents gallery).1 = .ok text :=
    exists_of_isOk (by decide +kernel)
  obtain ⟨P, order, hprep, hemitted, _, _, _, hiff, hrefers⟩ := generateComponents_variables h
  obtain rfl : (run prepareProgram gallery).2 = P := by rw [hprep]
  have horder : (emitted (run prepareProgram gallery).2).toOption = some galleryOrder := by
    decide +kernel
  rw [hemitted] at horder
  obtain rfl : order = galleryOrder := Option.some.inj horder
  exact ⟨text, h, hrefers (hiff.mpr (by decide +kernel))⟩

/-- Two types of one name, the second of which extends the first. -/
def namesakes : Registry :=
  (run (do
    addComponent "core.Context" (.component none "CoreObject" []) true
    addComponent "a.Foo" (.component none "CoreObject" []) true
    addComponent "b.Foo" (.component none "a.Foo" []) true
    scanUsing "@using \x7b b.Foo \x7d") { ns := "qml", buildId := "1" }).2

def namesakeOrder : List String := ["core.Context", "a.Foo", "b.Foo"]

/-- The two types share all their variables. Once the program has been evaluated, the variable for the base
of the first one stands for that type itself and not for the root of all types, which it extends. -/
theorem namesakes_share_variables :
    (run generateComponents namesakes).1.isOk = true ∧
      (run prepareProgram namesakes).1.isOk = true ∧
      (emitted (run prepareProgram namesakes).2).toOption = some namesakeOrder ∧
      variablesAt (run prepareProgram namesakes).2 "a.Foo" =
        variablesAt (run prepareProgram namesakes).2 "b.Foo" ∧
      (baseRun (run prepareProgram namesakes).2 "a.Foo").1.toOption = some root ∧
      (scope (run prepareProgram namesakes).2 namesakeOrder).get? "FooBaseComponent" =
        some (.constructor "a.Foo") := by
  refine ⟨?_, ?_, ?_, ?_, ?_, ?_⟩ <;> decide +kernel

end QmlScript.Registry
