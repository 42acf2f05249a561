import QmlScript.Proofs.Defaults

/-!
# Where calls are written

A call in an expression is one on the context of `$this`, a variable of the two halves of the script of a
type. What stands before them depends on no calls but those in trivial initial values and lazy properties,
and on each call in a trivial one.
-/

namespace QmlScript.Registry

open List
open Component (declaredItems isTrivialValue)

variable {c : Component} {r : Registry} {indent : Nat}

/-- Whether a text has a call of a function. -/
def hasCall (text : String) : Bool := containsText "$this._context." text

/-- A text that has no call in it stands for itself. -/
def withoutCall (text : String) : String := if hasCall text then "void 0" else text

/-- An initial value without calls. -/
def valueWithoutCall : Tree → Tree
  | .plain (.str text) => .plain (.str (withoutCall text))
  | value => value

/-- A declaration with initial values without calls. -/
def propertyWithoutCalls (p : Property) : Property :=
  { p with items := p.items.map fun item => (item.1, valueWithoutCall item.2) }

/-- An assigned value without calls. -/
def assignedWithoutCall : Assigned → Assigned
  | .text value => .text (withoutCall value)
  | value => value

mutual

/-- The component without calls, also in its parts. -/
def withoutCalls : Component → Component
  | c@{ parts, .. } => { c with
      properties := c.properties.map propertyWithoutCalls, declared := c.declared.map propertyWithoutCalls
      assignments := c.assignments.map assignedWithoutCall
      parts := partsWithoutCalls parts }

/-- Parts without calls. -/
def partsWithoutCalls : List Component → List Component
  | [] => []
  | part :: parts => withoutCalls part :: partsWithoutCalls parts

end

/-- No call is in a lazy property. -/
def LazyWithoutCalls (c : Component) : Prop :=
  ∀ name index part, c.lazyParts.get? name = some index → c.parts[index]? = some part → withoutCalls part = part

/-- No call is in an initial value that counts as trivial. -/
def TrivialWithoutCalls (c : Component) : Prop :=
  ∀ p name text, (p, name, .text text) ∈ c.declaredItems → p.isLazy = false → p.isConst = false →
    hasCall text = true → Script.isTrivialText text = .ok false

theorem withoutCalls_eq (c : Component) :
    withoutCalls c = { c with
      properties := c.properties.map propertyWithoutCalls, declared := c.declared.map propertyWithoutCalls
      assignments := c.assignments.map assignedWithoutCall
      parts := partsWithoutCalls c.parts } := by
  cases c
  simp only [withoutCalls]

theorem partsWithoutCalls_eq_map (parts : List Component) : partsWithoutCalls parts = parts.map withoutCalls := by
  induction parts with
  | nil => rfl
  | cons part parts ih => rw [partsWithoutCalls, ih, map_cons]

theorem emitParts_eq_map (parts : List Component) :
    emitParts parts = parts.map fun part => { component := part, emitter := emitter part } := by
  induction parts with
  | nil => rfl
  | cons part parts ih => rw [emitParts, ih, map_cons]

theorem hasProperty_withoutCalls (c : Component) (name : String) :
    hasProperty (withoutCalls c) name = hasProperty c name := by
  unfold hasProperty findProperty
  simp only [bind_assoc, findPropertyUpTo, ownProperty?, withoutCalls_eq, Table.get?_map]
  refine congrArg _ (funext fun r => ?_)
  cases c.declared.get? name <;> rfl

theorem pathRoot_withoutCalls (c : Component) : pathRoot (withoutCalls c) none = pathRoot c none := by
  funext name
  simp only [pathRoot, hasProperty_withoutCalls]

theorem trivialDefault_withoutCalls {value : Tree}
    (h : ∀ text, value = .plain (.str text) → hasCall text = true → Script.isTrivialText text = .ok false) :
    trivialDefault (withoutCalls c) (valueWithoutCall value) = trivialDefault c value := by
  unfold trivialDefault
  rw [pathRoot_withoutCalls]
  rcases value with _ | _ | _ | _ | _ | _ | _ | _ | _ | _ | _ | _ | ⟨_ | _ | _ | _ | text | _ | _⟩
  case plain.str =>
    cases hcall : hasCall text with
    | false => rw [valueWithoutCall, withoutCall, hcall, if_neg Bool.false_ne_true]
    | true =>
      have hvoid : Script.isTrivialText "void 0" = .ok false := by decide +kernel
      rw [valueWithoutCall, withoutCall, hcall, if_pos rfl]
      simp only [Component.isTrivialValue, Script.isTrivial, hvoid, h text rfl hcall]
      rfl
  all_goals rfl

theorem propertyLine_withoutCalls (h : LazyWithoutCalls c) {p : Property} {value : Tree}
    (hvalue : p.isLazy = false → p.isConst = false → ∀ text, value = .text text → hasCall text = true →
      Script.isTrivialText text = .ok false) (name object : String) (indent : Nat) :
    propertyLine (withoutCalls c) (emitParts (withoutCalls c).parts) object indent indent (propertyWithoutCalls p) name
        (valueWithoutCall value) =
      propertyLine c (emitParts c.parts) object indent indent p name value := by
  have htables : (withoutCalls c).lazyParts = c.lazyParts ∧ (withoutCalls c).constProperties = c.constProperties := by
    rw [withoutCalls_eq]
    exact ⟨rfl, rfl⟩
  have hkind : (propertyWithoutCalls p).isLazy = p.isLazy ∧ (propertyWithoutCalls p).isConst = p.isConst := ⟨rfl, rfl⟩
  unfold propertyLine
  rw [htables.1, htables.2, hkind.1, hkind.2]
  cases hlazy : p.isLazy with
  | true =>
    rw [if_pos rfl, if_pos rfl]
    cases hindex : c.lazyParts.get? name with
    | none => rfl
    | some index =>
      have hpart : partAt (emitParts (withoutCalls c).parts) index = partAt (emitParts c.parts) index := by
        simp only [withoutCalls_eq, partAt, emitParts_eq_map, partsWithoutCalls_eq_map, getElem?_map]
        cases hfound : c.parts[index]? with
        | none => rfl
        | some part => rw [Option.map_some, h name index part hindex hfound]
      dsimp only
      rw [hpart]
  | false =>
    rw [if_neg Bool.false_ne_true, if_neg Bool.false_ne_true]
    cases hconst : p.isConst with
    | true => rw [if_pos rfl, if_pos rfl]
    | false =>
      rw [if_neg Bool.false_ne_true, if_neg Bool.false_ne_true, trivialDefault_withoutCalls (hvalue hlazy hconst)]
      rfl

/-- If a declaration stays without a call in its value, that is not trivial. -/
theorem isTrivialText_of_propertyLine {p : Property} {name text object line : String} (hlazy : p.isLazy = false)
    (hconst : p.isConst = false) (hcall : hasCall text = true)
    (h : answer r (propertyLine c (emitParts c.parts) object indent indent p name (.text text)) = some line)
    (h' : answer r (propertyLine (withoutCalls c) (emitParts (withoutCalls c).parts) object indent indent
      (propertyWithoutCalls p) name (valueWithoutCall (.text text))) = some line) :
    Script.isTrivialText text = .ok false := by
  have hvoid : valueWithoutCall (.text text) = .text "void 0" := by
    rw [Node.text, valueWithoutCall, withoutCall, if_pos hcall]
    rfl
  rw [hvoid] at h'
  -- each line is the call that declares the property, with its own initial value
  have hline : ∀ {d : Component} {q : Property} {value : Tree}, q.isLazy = false → q.isConst = false →
      answer r (propertyLine d (emitParts d.parts) object indent indent q name value) = some line →
      ∃ default, HasDefault d r value default ∧ line = addProperty object q.type name indent default := by
    intro d q value hlazy hconst h
    simp only [propertyLine, hlazy, hconst, Bool.false_eq_true, if_false] at h
    rw [answer_bind] at h
    obtain ⟨default, hdefault, h⟩ := Option.bind_eq_some_iff.mp h
    exact ⟨default, hasDefault_of_answer hdefault, (Option.some.inj h).symm⟩
  obtain ⟨default, hdefault, rfl⟩ := hline hlazy hconst h
  obtain ⟨default', hdefault', heq⟩ := hline (q := propertyWithoutCalls p) hlazy hconst h'
  have htrivial : ∀ {text : String} {b : Bool}, isTrivialValue (.text text) = .ok b →
      Script.isTrivialText text = .ok b := by
    intro text b h
    rw [Node.text, isTrivialValue, Script.isTrivial] at h
    cases htext : Script.isTrivialText text with
    | error e => simp [htext, Except.mapError] at h
    | ok b' => simpa [htext, Except.mapError] using h
  cases default with
  | none => exact htrivial hdefault
  | some script =>
    cases default' with
    | none =>
      have hlength := congrArg (fun line => line.toList.length) heq
      simp [addProperty, propertyWithoutCalls] at hlength
    | some script' =>
      have hvoid : Script.isTrivialText "void 0" = .ok false := by decide +kernel
      cases hvoid.symm.trans (htrivial hdefault'.1)

theorem declaredItems_withoutCalls (c : Component) : (withoutCalls c).declaredItems =
    c.declaredItems.map fun item => (propertyWithoutCalls item.1, item.2.1, valueWithoutCall item.2.2) := by
  simp only [withoutCalls_eq, declaredItems, flatMap_map, map_flatMap, propertyWithoutCalls, map_map,
    Function.comp_def]

theorem exists_prototypeFront_eq (c : Component) (indent : Nat) : ∃ before after last : List String,
    (prototypeFront c indent = do
      return before ++ (← propertyLines c (emitParts c.parts) c.protoName indent indent) ++ after ++ last) ∧
    prototypeFront (withoutCalls c) indent = do
      return before ++ (← propertyLines (withoutCalls c) (emitParts (withoutCalls c).parts) c.protoName indent
        indent) ++ after ++ last := by
  refine ⟨_, _, _, rfl, ?_⟩
  rw [withoutCalls_eq]
  rfl

theorem exists_of_mapM {α β : Type} {f g : α → Option β} {as : List α} {bs : List β} (hf : as.mapM f = some bs)
    (hg : as.mapM g = some bs) {a : α} (ha : a ∈ as) : ∃ b, f a = some b ∧ g a = some b := by
  induction as generalizing bs with
  | nil => cases ha
  | cons a' as ih =>
    rw [mapM_cons] at hf hg
    obtain ⟨b, hb, hf⟩ := Option.bind_eq_some_iff.mp hf
    obtain ⟨rest, hrest, hf⟩ := Option.bind_eq_some_iff.mp hf
    obtain ⟨b', hb', hg⟩ := Option.bind_eq_some_iff.mp hg
    obtain ⟨rest', hrest', hg⟩ := Option.bind_eq_some_iff.mp hg
    cases hf
    cases hg
    rcases mem_cons.mp ha with rfl | ha
    · exact ⟨b, hb, hb'⟩
    · exact ih hrest hrest' ha

theorem prototypeFront_withoutCalls_iff (h : LazyWithoutCalls c) {front : List String}
    (hfront : answer r (prototypeFront c indent) = some front) :
    prototypeFront (withoutCalls c) indent = prototypeFront c indent ↔ TrivialWithoutCalls c := by
  obtain ⟨before, after, last, hc, hwithout⟩ := exists_prototypeFront_eq c indent
  have hlines : ∀ d : Component, propertyLines d (emitParts d.parts) c.protoName indent indent = d.declaredItems.mapM
      fun item => propertyLine d (emitParts d.parts) c.protoName indent indent item.1 item.2.1 item.2.2 :=
    fun d => propertyLines_eq _
  rw [hlines, declaredItems_withoutCalls, mapM_map, Function.comp_def] at hwithout
  rw [hlines] at hc
  constructor
  · intro heq p name text hitem hlazy hconst hcall
    rw [hc, answer_bind, answer_mapM] at hfront
    obtain ⟨lines, hlines, -⟩ := Option.bind_eq_some_iff.mp hfront
    have hfront' := congrArg (answer r) (heq.symm.trans hwithout)
    rw [hc, answer_bind, answer_mapM, hlines, answer_bind, answer_mapM] at hfront'
    obtain ⟨lines', hlines', hsame⟩ := Option.bind_eq_some_iff.mp hfront'.symm
    obtain rfl : lines' = lines := by simpa using hsame
    obtain ⟨line, hline, hline'⟩ := exists_of_mapM hlines hlines' hitem
    exact isTrivialText_of_propertyLine hlazy hconst hcall hline hline'
  · intro htrivial
    rw [hc, hwithout]
    refine congrArg (· >>= _) (mapM_congr fun item hitem => propertyLine_withoutCalls h ?_ _ _ _)
    intro hlazy hconst text htext
    exact htrivial item.1 item.2.1 text (htext ▸ hitem) hlazy hconst

theorem prototypeStage_withoutCalls (c : Component) (methods : List (MethodKey × Method)) (handlers : Handlers)
    (indent : Nat) :
    prototypeStage (withoutCalls c) methods handlers indent = prototypeStage c methods handlers indent := by
  have hname : (withoutCalls c).name = c.name := by rw [withoutCalls_eq]
  have hcode : processCode (withoutCalls c) = processCode c := by
    rw [withoutCalls_eq]
    rfl
  have hfunctions : functions (withoutCalls c) = functions c := by
    unfold functions functionText
    rw [hcode]
  have hlines : prototypeMethodLines (withoutCalls c) indent = prototypeMethodLines c indent := by
    funext lines groups
    induction groups generalizing lines with
    | nil => rfl
    | cons group groups ih =>
      simp only [prototypeMethodLines, ih, Component.protoName, Component.baseProtoName, Component.className, hname]
  funext front
  unfold prototypeStage prototypeHandlerLines
  simp only [hfunctions, hlines, Component.protoName, Component.className, hname]

/-- The halves of the script of a type, behind what stands in front. -/
def prototypeBehind (c : Component) (indent : Nat) (lines : Lines) : Work String := do
  let created ← (emitter c).creators "$this" "$c" (indent + 1)
  let settled ← (emitter c).setup "$this" "$c" (indent + 2)
  return "\n".intercalate (lines.1 ++ prototypeBack c indent created settled)

/-- The methods and handlers of a type are what they are without any calls. If no lazy property has a call,
its declarations are so too, exactly if no initial value with a call counts as trivial. -/
theorem calls_inside {text : String} (h : LazyWithoutCalls c)
    (htext : (run (prototypeText c indent) r).1 = .ok text) :
    ∃ methods handlers, Prepared c methods handlers ∧
      (prototypeText c indent = do
        let front ← prototypeFront c indent
        prototypeStage (withoutCalls c) methods handlers indent (front, 0) >>= prototypeBehind c indent) ∧
      (prototypeFront (withoutCalls c) indent = prototypeFront c indent ↔ TrivialWithoutCalls c) := by
  obtain ⟨hproto, methods, handlers, hprepared⟩ := prepared_of_prototypeText (answer_eq_some.mpr htext)
  have heq := hprepared.prototypeText_eq hproto indent
  refine ⟨methods, handlers, hprepared, ?_, ?_⟩
  · rw [heq, prototypeStage_withoutCalls]
    rfl
  · rw [heq] at htext
    obtain ⟨front, s, hfront, -⟩ := exists_of_answer_bind (answer_eq_some.mpr htext)
    exact prototypeFront_withoutCalls_iff h hfront

def counter : Component :=
  let count : Property := { doc := none, type := "int", items := [("count", .text (Grammar.callText "f" []))] }
  { name := "ui.Counter", base := rootName, prototype := true, handlers := some {}
    properties := [count], declared := ⟨[("count", count)]⟩
    assignments := ⟨[("count", .text (Grammar.callText "f" []))]⟩ }

theorem calls_inside_counter :
    hasCall (Grammar.callText "f" []) = true ∧ ∃ methods handlers, Prepared counter methods handlers ∧
      (prototypeText counter 1 = do
        let front ← prototypeFront counter 1
        prototypeStage (withoutCalls counter) methods handlers 1 (front, 0) >>= prototypeBehind counter 1) ∧
      prototypeFront (withoutCalls counter) 1 = prototypeFront counter 1 := by
  have hlazy : LazyWithoutCalls counter := fun _ _ _ hindex => nomatch hindex
  have htext : (answer { ns := "qml", buildId := "1" } (prototypeText counter 1)).isSome = true := by decide +kernel
  obtain ⟨text, htext⟩ := Option.isSome_iff_exists.mp htext
  obtain ⟨methods, handlers, hprepared, heq, hiff⟩ := calls_inside hlazy (answer_eq_some.mp htext)
  refine ⟨by decide +kernel, methods, handlers, hprepared, heq, hiff.mpr ?_⟩
  rintro p name text hitem - - -
  obtain ⟨rfl, rfl, rfl⟩ : p = _ ∧ name = "count" ∧ text = Grammar.callText "f" [] := by
    simpa [declaredItems, counter, Node.text] using hitem
  decide +kernel

/-- A call in a lazy property stands outside. -/
theorem call_outside :
    let r : Registry := { ns := "qml", buildId := "1" }
    let lazy := Node.component none rootName [.property none "int" [("x", .text (Grammar.callText "f" []))]]
    let box := (Component.build "ui.Box" true (.component none rootName [.property none "lazy" [("p", lazy)]])).toOption
    let front := fun change => box.bind fun c => answer r (prototypeFront (change (prepareComponent c r).1.1) 1)
    (front id).isSome = true ∧ front id ≠ front withoutCalls := by
  decide +kernel

end QmlScript.Registry
