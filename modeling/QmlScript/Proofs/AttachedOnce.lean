import QmlScript.Proofs.Attachments

/-!
# Methods and handlers are attached once

Every entry of a prepared component is attached by exactly one statement, with the function of its own code,
and nothing else in the script comes from methods and handlers.
-/

namespace QmlScript.Registry

open List

variable {c : Component} {r : Registry}

/-! ## The script of a component -/

/-- The methods and the handlers of a prepared component, by their kinds. -/
def entriesOf (methods : List (MethodKey × Method)) (handlers : Handlers) :
    Option HandlerKind → List (MethodKey × Method)
  | none => methods
  | some .signal => handlers.signal.entries
  | some .changed => handlers.changed.entries
  | some .key => handlers.key.entries

/-- Whether an entry is attached to the prototype of a type, for the type itself. -/
def onPrototype (c : Component) (kind : Option HandlerKind) (key : MethodKey) : Bool :=
  c.prototype && (kind.isNone || key.1 = "")

section Stages

variable {methods : List (MethodKey × Method)} {handlers : Handlers}

def methodStage (c : Component) (methods : List (MethodKey × Method)) (parent : String) (indent : Nat)
    (front : Lines) : Work Lines :=
  if c.prototype then pure front else functions c ⟨methods⟩ >>= methodLines c parent indent front

theorem appends_methodStage (parent : String) (indent : Nat) :
    Appends c r (instanceLine c r parent indent) (ofKind none (methods.filter fun _ => !c.prototype))
      (methodStage c methods parent indent) := by
  unfold methodStage
  cases c.prototype with
  | true => exact Appends.nothing.congr fun kind => by simp [ofKind]
  | false =>
    refine (writesGroups_methodLines c parent indent).appends (fun _ _ => rfl)
      (fun number code keys => answer_methodGroup c parent indent number code _) (fun _ => true)
      (fun keys => ?_) ⟨methods⟩
    rw [filter_true]
    exact sortBy_perm keyLt keys

theorem appends_attachTable (kind : HandlerKind) (parent : String) (indent : Nat) :
    Appends c r (instanceLine c r parent indent)
      (ofKind (some kind) ((kind.table handlers).entries.filter fun entry => entry.1.1 ≠ "" || !c.prototype))
      (attachTable c parent indent kind handlers) := by
  have hline : ∀ key code, instanceLine c r parent indent (.attach (some kind) key code) =
      answer r (attachLine c parent indent kind.method (kind ≠ .key) code.text key) := by
    intro key code
    rw [attachLine, answer_bind]
    rfl
  exact (writesGroups_handlerLines (sortBy_perm keyLt)).appends (fun _ _ => rfl)
    (fun number code keys => answer_handlerGroup (sortBy_perm keyLt) (fun key code _ => hline key code) _ keys)
    (fun key => key.1 ≠ "" || !c.prototype) (fun keys => sortBy_perm keyLt _) (kind.table handlers)

def instanceStage (c : Component) (methods : List (MethodKey × Method)) (handlers : Handlers) (parent : String)
    (indent : Nat) (front : Lines) : Work Lines :=
  methodStage c methods parent indent front >>= fun front =>
    attachTable c parent indent .signal handlers front >>= fun front =>
      attachTable c parent indent .changed handlers front >>= attachTable c parent indent .key handlers

theorem appends_instanceStage (methods : List (MethodKey × Method)) (handlers : Handlers) (parent : String)
    (indent : Nat) :
    Appends c r (instanceLine c r parent indent)
      (fun kind => (entriesOf methods handlers kind).filter fun entry => !onPrototype c kind entry.1)
      (instanceStage c methods handlers parent indent) := by
  refine (((appends_methodStage parent indent).bind ((appends_attachTable _ parent indent).bind
    ((appends_attachTable _ parent indent).bind (appends_attachTable _ parent indent)))).congr fun kind => ?_)
  rcases kind with _ | _ | _ | _ <;>
    simp [ofKind, entriesOf, onPrototype, HandlerKind.table, Bool.or_comm]

theorem appends_prototypeMethods (methods : List (MethodKey × Method)) (indent : Nat) :
    Appends c r (prototypeLine c indent) (ofKind none methods)
      fun front => functions c ⟨methods⟩ >>= prototypeMethodLines c indent front := by
  refine ((writesGroups_prototypeMethodLines c indent).appends (fun _ _ => rfl)
    (fun number code keys => answer_prototypeGroup c indent _ keys) (fun _ => true) (fun keys => ?_) ⟨methods⟩).congr
      fun kind => by rw [filter_true]
  rw [filter_true]
  exact .refl keys

theorem appends_prototypeHandlers (kind : HandlerKind) (indent : Nat) :
    Appends c r (prototypeLine c indent)
      (ofKind (some kind) ((kind.table handlers).entries.filter fun entry => entry.1.1 = ""))
      (prototypeHandlerLines c indent kind handlers) := by
  refine (writesGroups_handlerLines fun keys => .refl keys).appends (fun _ _ => rfl)
    (fun number code keys => answer_handlerGroup (fun keys => .refl keys) (fun key code hkey => ?_) _ keys)
    (fun key => key.1 = "") (fun keys => .refl _) (kind.table handlers)
  rw [prototypeLine, if_neg fun hpath => hpath (of_decide_eq_true hkey)]
  rfl

theorem appends_prototypeStage (hproto : c.prototype = true) (methods : List (MethodKey × Method))
    (handlers : Handlers) (indent : Nat) :
    Appends c r (prototypeLine c indent)
      (fun kind => (entriesOf methods handlers kind).filter fun entry => onPrototype c kind entry.1)
      (prototypeStage c methods handlers indent) := by
  refine ((appends_prototypeMethods methods indent).bind ((appends_prototypeHandlers .changed indent).bind
    ((appends_prototypeHandlers .signal indent).bind (appends_prototypeHandlers .key indent)))).congr fun kind => ?_
  rcases kind with _ | _ | _ | _ <;> simp [ofKind, entriesOf, onPrototype, HandlerKind.table, hproto]

end Stages

/-- The component is prepared, with the given methods and handlers. -/
structure Prepared (c : Component) (methods : List (MethodKey × Method)) (handlers : Handlers) : Prop where
  methods : preparedMethods c.methods.entries = .ok methods
  handlers : c.handlers = some handlers

def unattached (c : Component) : Component := { c with methods := {}, handlers := some {} }

theorem prepared_unattached (c : Component) : Prepared (unattached c) [] {} := ⟨rfl, rfl⟩

variable {methods : List (MethodKey × Method)} {handlers : Handlers}
variable {parent text : String} {indent : Nat}

theorem Prepared.unique {methods' : List (MethodKey × Method)} {handlers' : Handlers}
    (h : Prepared c methods handlers) (h' : Prepared c methods' handlers') :
    methods = methods' ∧ handlers = handlers' :=
  ⟨Except.ok.inj (h.methods.symm.trans h'.methods), Option.some.inj (h.handlers.symm.trans h'.handlers)⟩

theorem Prepared.handlersOf (h : Prepared c methods handlers) : handlersOf c = pure handlers := by
  rw [Registry.handlersOf, h.handlers]

theorem handlers_of_answer (h : answer r (handlersOf c) = some handlers) : c.handlers = some handlers := by
  unfold handlersOf at h
  cases hhandlers : c.handlers with
  | none => simp [hhandlers] at h
  | some handlers' =>
    rw [hhandlers] at h
    exact h

theorem Prepared.attachments_eq (h : Prepared c methods handlers) (parent : String) (indent : Nat) :
    attachments c parent indent =
      instanceStage c methods handlers parent indent ([], 0) >>= fun lines => pure lines.1 := by
  unfold attachments attachHandlers instanceStage methodStage
  simp only [h.handlersOf, h.methods, check, pure_bind, bind_assoc]
  cases c.prototype with
  | true => simp only [if_true, pure_bind]
  | false => simp only [Bool.false_eq_true, if_false, bind_assoc]

theorem attachments_unattached (c : Component) (parent : String) (indent : Nat) :
    attachments (unattached c) parent indent = pure [] := by
  rw [(prepared_unattached c).attachments_eq]
  unfold instanceStage methodStage attachTable
  simp only [HandlerKind.table, functions_none, pure_bind, handlerLines, methodLines, ite_self]

theorem prepared_of_attachments (hpart : c.prototype = false) {lines : List String}
    (h : answer r (attachments c parent indent) = some lines) :
    ∃ methods handlers, Prepared c methods handlers := by
  unfold attachments attachHandlers at h
  simp only [hpart, Bool.false_eq_true, if_false] at h
  obtain ⟨methods, s, hmethods, h⟩ := exists_of_answer_bind h
  obtain ⟨groups, s, -, h⟩ := exists_of_answer_bind h
  obtain ⟨lines, s, -, h⟩ := exists_of_answer_bind h
  obtain ⟨handlers, s, hhandlers, h⟩ := exists_of_answer_bind h
  exact ⟨methods, handlers, ok_of_answer_check hmethods, handlers_of_answer hhandlers⟩

theorem setup_eq (c : Component) (parent closure : String) (indent : Nat) :
    (emitter c).setup parent closure indent = setup c (emitParts c.parts) parent closure indent := by
  rw [emitter_eq]

theorem answer_setup {closure : String} (h : answer r ((emitter c).setup parent closure indent) = some text) :
    ∃ front attached back, answer r (setupFront c (emitParts c.parts) parent closure indent) = some front ∧
      answer r (attachments c parent indent) = some attached ∧ text = "\n".intercalate (front ++ attached ++ back) ∧
      answer r ((emitter (unattached c)).setup parent closure indent) = some ("\n".intercalate (front ++ back)) := by
  rw [setup_eq, setup, answer_bind] at h
  obtain ⟨front, hfront, h⟩ := Option.bind_eq_some_iff.mp h
  rw [answer_bind] at h
  obtain ⟨attached, hattached, h⟩ := Option.bind_eq_some_iff.mp h
  rw [answer_bind] at h
  obtain ⟨back, hback, h⟩ := Option.bind_eq_some_iff.mp h
  have hrest : (emitter (unattached c)).setup parent closure indent = (do
      let front ← setupFront c (emitParts c.parts) parent closure indent
      let back ← setupBack c (emitParts c.parts) parent closure indent
      pure ("\n".intercalate (front ++ back))) := by
    rw [setup_eq, setup]
    simp only [attachments_unattached, pure_bind, append_nil]
    rfl
  refine ⟨front, attached, back, hfront, hattached, (Option.some.inj h).symm, ?_⟩
  rw [hrest, answer_bind, hfront, Option.bind_some, answer_bind, hback]
  rfl

/-- The prototype of a type, with `stage` for its methods and handlers. -/
def prototypeAround (c : Component) (indent : Nat) (stage : Lines → Work Lines) (settle : Work String) :
    Work String := do
  let front ← prototypeFront c indent
  let lines ← stage (front, 0)
  let created ← (emitter c).creators "$this" "$c" (indent + 1)
  let settled ← settle
  return "\n".intercalate (lines.1 ++ prototypeBack c indent created settled)

theorem Prepared.prototypeText_eq (h : Prepared c methods handlers) (hproto : c.prototype = true) (indent : Nat) :
    prototypeText c indent = prototypeAround c indent (prototypeStage c methods handlers indent)
      ((emitter c).setup "$this" "$c" (indent + 2)) := by
  unfold prototypeText prototypeAround
  simp only [hproto, h.handlersOf, h.methods, check, pure_bind, if_true]

theorem prototypeText_unattached (hproto : c.prototype = true) (indent : Nat) :
    prototypeText (unattached c) indent =
      prototypeAround c indent pure ((emitter (unattached c)).setup "$this" "$c" (indent + 2)) := by
  have hstage : prototypeStage (unattached c) [] {} indent = pure := by
    funext front
    unfold prototypeStage prototypeHandlerLines
    simp only [HandlerKind.table, functions_none, pure_bind, handlerLines, prototypeMethodLines]
  rw [(prepared_unattached c).prototypeText_eq hproto, hstage]
  unfold prototypeAround
  rw [emitter_eq c, emitter_eq (unattached c)]
  rfl

theorem prepared_of_prototypeText (h : answer r (prototypeText c indent) = some text) :
    c.prototype = true ∧ ∃ methods handlers, Prepared c methods handlers := by
  unfold prototypeText at h
  cases hproto : c.prototype with
  | false => simp [hproto] at h
  | true =>
    simp only [hproto, if_true] at h
    obtain ⟨front, s, -, h⟩ := exists_of_answer_bind h
    obtain ⟨methods, s, hmethods, h⟩ := exists_of_answer_bind h
    obtain ⟨handlers, s, hhandlers, h⟩ := exists_of_answer_bind h
    exact ⟨rfl, methods, handlers, ok_of_answer_check hmethods, handlers_of_answer hhandlers⟩

theorem answer_prototypeAround (stage : Lines → Work Lines) (settle : Work String)
    [∀ front, Resolves (stage front)] [Resolves settle] (indent : Nat) :
    answer r (prototypeAround c indent stage settle) =
      (answer r (prototypeFront c indent)).bind fun front =>
        (answer r (stage (front, 0))).bind fun lines =>
          (answer r ((emitter c).creators "$this" "$c" (indent + 1))).bind fun created =>
            (answer r settle).map fun settled =>
              "\n".intercalate (lines.1 ++ prototypeBack c indent created settled) := by
  unfold prototypeAround
  simp only [answer_bind, answer_pure, Option.map_eq_bind]
  rfl

/-- The text sets an object up. It has the lines that attach the entries in one place, and is without them what sets up
an object with nothing to attach. -/
def AttachedInSetup (c : Component) (r : Registry) (entries : Option HandlerKind → List (MethodKey × Method))
    (parent closure : String) (indent : Nat) (text : String) : Prop :=
  ∃ front block lines back,
    text = "\n".intercalate (front ++ lines ++ back) ∧
    (run ((emitter (unattached c)).setup parent closure indent) r).1 = .ok ("\n".intercalate (front ++ back)) ∧
    block.mapM (instanceLine c r parent indent) = some lines ∧ Attaches c r entries block

/-- The text is the prototype of a type with the halves `created` and `settled`. It has the lines that attach the
entries in one place, and is without them the prototype of a type with nothing to attach and another second half. -/
def AttachedInPrototype (c : Component) (r : Registry)
    (entries : Option HandlerKind → List (MethodKey × Method)) (indent : Nat) (created settled text : String) :
    Prop :=
  ∃ front block lines settled',
    text = "\n".intercalate (front ++ lines ++ prototypeBack c indent created settled) ∧
    (run ((emitter (unattached c)).setup "$this" "$c" (indent + 2)) r).1 = .ok settled' ∧
    (run (prototypeText (unattached c) indent) r).1 =
      .ok ("\n".intercalate (front ++ prototypeBack c indent created settled')) ∧
    block.mapM (prototypeLine c indent) = some lines ∧ Attaches c r entries block

theorem Prepared.attachedInSetup (h : Prepared c methods handlers) {closure : String}
    (htext : answer r ((emitter c).setup parent closure indent) = some text) :
    AttachedInSetup c r
      (fun kind => (entriesOf methods handlers kind).filter fun entry => !onPrototype c kind entry.1)
      parent closure indent text := by
  have hstage := appends_instanceStage (c := c) (r := r) methods handlers parent indent
  obtain ⟨front, attached, back, -, hattached, rfl, hunattached⟩ := answer_setup htext
  have := hstage.resolves
  rw [h.attachments_eq, answer_bind] at hattached
  obtain ⟨out, hout, hattached⟩ := Option.bind_eq_some_iff.mp hattached
  obtain ⟨block, lines, hlines, hwritten, hblock⟩ := hstage.written _ _ hout
  obtain rfl : attached = lines := (Option.some.inj hattached).symm.trans hwritten
  exact ⟨front, block, attached, back, rfl, answer_eq_some.mp hunattached, hlines, hblock⟩

theorem Prepared.answer_prototypeText (h : Prepared c methods handlers) (hproto : c.prototype = true)
    (htext : answer r (prototypeText c indent) = some text) :
    ∃ front block lines created settled, answer r (prototypeFront c indent) = some front ∧
      block.mapM (prototypeLine c indent) = some lines ∧
      Attaches c r (fun kind => (entriesOf methods handlers kind).filter fun entry => onPrototype c kind entry.1)
        block ∧
      answer r ((emitter c).creators "$this" "$c" (indent + 1)) = some created ∧
      answer r ((emitter c).setup "$this" "$c" (indent + 2)) = some settled ∧
      text = "\n".intercalate (front ++ lines ++ prototypeBack c indent created settled) := by
  have hstage := appends_prototypeStage (r := r) hproto methods handlers indent
  have := hstage.resolves
  rw [h.prototypeText_eq hproto, answer_prototypeAround] at htext
  obtain ⟨front, hfront, htext⟩ := Option.bind_eq_some_iff.mp htext
  obtain ⟨out, hout, htext⟩ := Option.bind_eq_some_iff.mp htext
  obtain ⟨created, hcreated, htext⟩ := Option.bind_eq_some_iff.mp htext
  obtain ⟨settled, hsettled, rfl⟩ := Option.map_eq_some_iff.mp htext
  obtain ⟨block, lines, hlines, hwritten, hblock⟩ := hstage.written _ _ hout
  exact ⟨front, block, lines, created, settled, hfront, hlines, hblock, hcreated, hsettled, by rw [hwritten]⟩

theorem Prepared.attachedInPrototype (h : Prepared c methods handlers) (hproto : c.prototype = true)
    (htext : answer r (prototypeText c indent) = some text) :
    ∃ created settled, answer r ((emitter c).creators "$this" "$c" (indent + 1)) = some created ∧
      answer r ((emitter c).setup "$this" "$c" (indent + 2)) = some settled ∧
      AttachedInPrototype c r
        (fun kind => (entriesOf methods handlers kind).filter fun entry => onPrototype c kind entry.1)
        indent created settled text := by
  obtain ⟨front, block, lines, created, settled, hfront, hlines, hblock, hcreated, hsettled, rfl⟩ :=
    h.answer_prototypeText hproto htext
  obtain ⟨_, _, _, -, -, -, hunattached⟩ := answer_setup hsettled
  refine ⟨created, settled, hcreated, hsettled, front, block, lines, _, rfl, answer_eq_some.mp hunattached, ?_,
    hlines, hblock⟩
  -- Declarations and creators do not see methods or handlers, so only the setup is another one.
  rw [← answer_eq_some, prototypeText_unattached hproto, answer_prototypeAround, hfront, hcreated, hunattached]
  rfl

/-- Generating a component attaches each of its methods and handlers exactly once, with the function of its
own code. A part has all of them in its setup. A type has its methods and the handlers of its own events in
the prototype, and the handlers of other objects in the setup. -/
theorem attached_once (c : Component) (r : Registry) :
    (∀ parent closure indent text, c.prototype = false →
      (run ((emitter c).setup parent closure indent) r).1 = .ok text →
      ∃ methods handlers, Prepared c methods handlers ∧
        AttachedInSetup c r (entriesOf methods handlers) parent closure indent text) ∧
    ∀ indent text, (run (prototypeText c indent) r).1 = .ok text →
      ∃ methods handlers created settled, Prepared c methods handlers ∧
        (run ((emitter c).creators "$this" "$c" (indent + 1)) r).1 = .ok created ∧
        (run ((emitter c).setup "$this" "$c" (indent + 2)) r).1 = .ok settled ∧
        AttachedInPrototype c r
          (fun kind => (entriesOf methods handlers kind).filter fun entry => kind.isNone || entry.1.1 = "")
          indent created settled text ∧
        AttachedInSetup c r
          (fun kind => (entriesOf methods handlers kind).filter fun entry => !(kind.isNone || entry.1.1 = ""))
          "$this" "$c" (indent + 2) settled := by
  refine ⟨fun parent closure indent text hpart htext => ?_, fun indent text htext => ?_⟩
  -- That the component is prepared need not be assumed: nothing else is generated.
  · rw [← answer_eq_some] at htext
    obtain ⟨_, attached, _, -, hattached, -⟩ := answer_setup htext
    obtain ⟨methods, handlers, hprepared⟩ := prepared_of_attachments hpart hattached
    refine ⟨methods, handlers, hprepared, ?_⟩
    simpa [onPrototype, hpart] using hprepared.attachedInSetup htext
  · rw [← answer_eq_some] at htext
    obtain ⟨hproto, methods, handlers, hprepared⟩ := prepared_of_prototypeText htext
    obtain ⟨created, settled, hcreated, hsettled, hprototype⟩ := hprepared.attachedInPrototype hproto htext
    have hsetup := hprepared.attachedInSetup hsettled
    simp only [onPrototype, hproto, Bool.true_and] at hprototype hsetup
    exact ⟨methods, handlers, created, settled, hprepared, answer_eq_some.mp hcreated,
      answer_eq_some.mp hsettled, hprototype, hsetup⟩

def resetMethod : MethodKey × Method :=
  (("", "reset"), { args := [], code := "\x7b @super.reset() \x7d", async := false })

/-- Handlers of signals with one code, one of them for another object. -/
def moveHandlers : Handlers :=
  let move : Method := { args := ["x"], code := "\x7b this.move(x) \x7d", async := false }
  { signal := ⟨[(("", "opened"), move), (("", "closed"), move), (("parent", "clicked"), move)]⟩ }

def widthHandlers : Handlers :=
  let resize : Method := { args := ["value"], code := "\x7b this.width = value \x7d", async := false }
  { changed := ⟨[(("parent", "width"), resize)]⟩ }

def movable (prototype : Bool) (handlers : Handlers) : Component :=
  { name := "ui.Movable", base := rootName, prototype, handlers := some handlers
    methods := ⟨[(resetMethod.1, .prepared resetMethod.2)]⟩ }

theorem prepared_movable (prototype : Bool) (handlers : Handlers) :
    Prepared (movable prototype handlers) [resetMethod] handlers := ⟨rfl, rfl⟩

theorem attached_once_movable :
    let r : Registry := { ns := "qml", buildId := "1" }
    (∃ text, (run ((emitter (movable false widthHandlers)).setup "form" "$c" 1) r).1 = .ok text ∧
      AttachedInSetup (movable false widthHandlers) r (entriesOf [resetMethod] widthHandlers) "form" "$c" 1
        text) ∧
    ∃ text created settled, (run (prototypeText (movable true moveHandlers) 1) r).1 = .ok text ∧
      AttachedInPrototype (movable true moveHandlers) r
        (fun kind => (entriesOf [resetMethod] moveHandlers kind).filter fun entry =>
          kind.isNone || entry.1.1 = "") 1 created settled text ∧
      AttachedInSetup (movable true moveHandlers) r
        (fun kind => (entriesOf [resetMethod] moveHandlers kind).filter fun entry =>
          !(kind.isNone || entry.1.1 = "")) "$this" "$c" 3 settled := by
  intro r
  have hpart : (answer r ((emitter (movable false widthHandlers)).setup "form" "$c" 1)).isSome = true := by
    decide +kernel
  have htype : (answer r (prototypeText (movable true moveHandlers) 1)).isSome = true := by decide +kernel
  obtain ⟨settled, hsettled⟩ := Option.isSome_iff_exists.mp hpart
  obtain ⟨text, htext⟩ := Option.isSome_iff_exists.mp htype
  rw [answer_eq_some] at hsettled htext
  obtain ⟨_, _, hprepared, hattached⟩ := (attached_once _ r).1 _ _ _ settled rfl hsettled
  obtain ⟨_, _, created, settled', hprepared', -, -, hprototype, hsetup⟩ :=
    (attached_once _ r).2 _ text htext
  obtain ⟨rfl, rfl⟩ := (prepared_movable false widthHandlers).unique hprepared
  obtain ⟨rfl, rfl⟩ := (prepared_movable true moveHandlers).unique hprepared'
  exact ⟨⟨settled, hsettled, hattached⟩, text, created, settled', htext, hprototype, hsetup⟩

end QmlScript.Registry
