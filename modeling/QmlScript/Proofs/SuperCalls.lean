import QmlScript.Proofs.AttachedOnce

/-!
# Calls of methods of the base

In the code of a method `@super.` stands for the prototype of the base, and is replaced in the statement that
attaches the method. Code that several methods share is written where its variable is defined, and stays as it
is.
-/

namespace QmlScript.Registry

variable {c : Component} {r : Registry} {indent : Nat} {parent ref base : String} {lines : List String}
  {entries : Option HandlerKind → List (MethodKey × Method)} {block : List Attachment}

/-- The statement with the reference in the code that it has for a method. -/
def rewritten (ref : String) : Attachment → Attachment
  | .attach none key (.inline code) => .attach none key (.inline (replaceText "@super." ref code))
  | statement => statement

def withReference (ref : String) (member : MethodKey × Option String) : MethodKey × Option String :=
  (member.1, member.2.map (replaceText "@super." ref))

/-- The functions that methods have through variables. -/
def sharedFunctions (known : Nat → Option String) : List Attachment → List String
  | [] => []
  | .define number code :: block =>
    sharedFunctions (fun other => if other = number then some code else known other) block
  | .attach none _ (.shared number) :: block => (known number).toList ++ sharedFunctions known block
  | .attach _ _ _ :: block => sharedFunctions known block

/-- The line that attaches a method as it stands, among `other` lines. -/
def plainLine (indent : Nat) (target : MethodKey → Option String) (ending : String)
    (other : Attachment → Option String) : Attachment → Option String
  | .attach none key code => (target key).map fun object =>
      tabs indent ++ object ++ "." ++ key.2 ++ " = " ++ code.text ++ ending
  | statement => other statement

/-- The lines attach the entries, with the reference for `@super.` in the methods if and only if those that are shared
have nothing to replace. -/
def RewrittenUnlessShared (c : Component) (r : Registry) (entries : Option HandlerKind → List (MethodKey × Method))
    (ref : String) (line : Attachment → Option String) (lines : List String) : Prop :=
  ∃ block, Attaches c r entries block ∧ (block.map (rewritten ref)).mapM line = some lines ∧
    ∀ known, attached none known (block.map (rewritten ref)) = (attached none known block).map (withReference ref) ↔
      ∀ code ∈ sharedFunctions known block, replaceText "@super." ref code = code

theorem attached_rewritten (known : Nat → Option String) (block : List Attachment) :
    attached none known (block.map (rewritten ref)) = (attached none known block).map (withReference ref) ↔
      ∀ code ∈ sharedFunctions known block, replaceText "@super." ref code = code := by
  induction block generalizing known with
  | nil => simp [attached, sharedFunctions]
  | cons statement block ih =>
    rcases statement with ⟨number, code⟩ | ⟨_ | kind, key, code | number⟩
    · exact ih _
    · simpa [rewritten, attached, withReference, Code.meaning, sharedFunctions] using ih known
    · cases hknown : known number with
      | none => simpa [rewritten, attached, withReference, Code.meaning, sharedFunctions, hknown] using ih known
      | some code =>
        simp [rewritten, attached, withReference, Code.meaning, sharedFunctions, hknown, ih known, eq_comm (a := code)]
    · exact ih known
    · exact ih known

theorem rewrittenUnlessShared {line plain : Attachment → Option String}
    (hline : ∀ statement, line statement = plain (rewritten ref statement)) (hblock : Attaches c r entries block)
    (hlines : block.mapM line = some lines) : RewrittenUnlessShared c r entries ref plain lines := by
  refine ⟨block, hblock, ?_, fun known => attached_rewritten known block⟩
  rw [List.mapM_map, ← hlines]
  exact mapM_congr fun statement _ => (hline statement).symm

theorem instanceLine_eq (hbase : answer r (mangledBaseOf c) = some base) (statement : Attachment) :
    instanceLine c r parent indent statement =
      plainLine indent (fun key => answer r (Script.pathOrParent key.1 parent (pathRoot c none)))
        (".bind(" ++ parent ++ ")") (instanceLine c r parent indent) (rewritten (base ++ ".prototype.") statement) := by
  rcases statement with ⟨number, code⟩ | ⟨_ | kind, key, code | number⟩
  case attach.none.inline | attach.none.shared =>
    rw [instanceLine, hbase]
    cases hobject : answer r (Script.pathOrParent key.1 parent (pathRoot c none)) <;>
      simp [plainLine, rewritten, hobject, Code.text, replaceText_codeVariable, String.append_assoc]
  all_goals rfl

theorem prototypeLine_eq (c : Component) (indent : Nat) (statement : Attachment) :
    prototypeLine c indent statement =
      plainLine indent (fun key => if key.1 = "" then some c.protoName else none) "" (prototypeLine c indent)
        (rewritten (c.baseProtoName ++ ".") statement) := by
  rcases statement with ⟨number, code⟩ | ⟨_ | kind, key, code | number⟩
  case attach.none.inline | attach.none.shared =>
    by_cases hkey : key.1 = "" <;>
      simp [prototypeLine, plainLine, rewritten, hkey, Code.text, replaceText_codeVariable]
  all_goals rfl

/-- The methods of a part are attached in its setup, those of a type in its prototype. -/
theorem super_rewritten_iff (c : Component) (r : Registry) :
    (∀ base parent closure indent text, c.prototype = false → (run (mangledBaseOf c) r).1 = .ok base →
      (run ((emitter c).setup parent closure indent) r).1 = .ok text →
      ∃ methods handlers front lines back, Prepared c methods handlers ∧
        text = "\n".intercalate (front ++ lines ++ back) ∧
        RewrittenUnlessShared c r (entriesOf methods handlers) (base ++ ".prototype.") (plainLine indent
          (fun key => answer r (Script.pathOrParent key.1 parent (pathRoot c none))) (".bind(" ++ parent ++ ")")
          (instanceLine c r parent indent)) lines) ∧
    ∀ indent text, (run (prototypeText c indent) r).1 = .ok text →
      ∃ methods handlers front lines back, Prepared c methods handlers ∧
        text = "\n".intercalate (front ++ lines ++ back) ∧
        RewrittenUnlessShared c r
          (fun kind => (entriesOf methods handlers kind).filter fun entry => kind.isNone || entry.1.1 = "")
          (c.baseProtoName ++ ".") (plainLine indent (fun key => if key.1 = "" then some c.protoName else none) ""
          (prototypeLine c indent)) lines := by
  constructor
  · intro base parent closure indent text hpart hbase htext
    rw [← answer_eq_some] at hbase htext
    obtain ⟨_, _, _, -, hattached, -⟩ := answer_setup htext
    obtain ⟨methods, handlers, hprepared⟩ := prepared_of_attachments hpart hattached
    obtain ⟨front, block, lines, back, htext, -, hlines, hblock⟩ := hprepared.attachedInSetup htext
    simp only [onPrototype, hpart, Bool.false_and, Bool.not_false, List.filter_true] at hblock
    exact ⟨methods, handlers, front, lines, back, hprepared, htext,
      rewrittenUnlessShared (instanceLine_eq hbase) hblock hlines⟩
  · intro indent text htext
    rw [← answer_eq_some] at htext
    obtain ⟨hproto, methods, handlers, hprepared⟩ := prepared_of_prototypeText htext
    obtain ⟨created, settled, -, -, front, block, lines, _, htext, -, -, hlines, hblock⟩ :=
      hprepared.attachedInPrototype hproto htext
    simp only [onPrototype, hproto, Bool.true_and] at hblock
    exact ⟨methods, handlers, front, lines, prototypeBack c indent created settled, hprepared, htext,
      rewrittenUnlessShared (prototypeLine_eq c indent) hblock hlines⟩

theorem super_rewritten_iff_movable :
    let r : Registry := { ns := "qml", buildId := "1" }
    (∃ methods handlers lines, RewrittenUnlessShared (movable false widthHandlers) r (entriesOf methods handlers)
      "$core.CoreObject.prototype." (plainLine 1 (fun key => answer r (Script.pathOrParent key.1 "form"
        (pathRoot (movable false widthHandlers) none))) ".bind(form)"
          (instanceLine (movable false widthHandlers) r "form" 1))
        lines) ∧
    ∃ entries lines, RewrittenUnlessShared (movable true moveHandlers) r entries "MovableBasePrototype."
      (plainLine 1 (fun key => if key.1 = "" then some "MovablePrototype" else none) ""
        (prototypeLine (movable true moveHandlers) 1)) lines := by
  intro r
  have hpart : (answer r ((emitter (movable false widthHandlers)).setup "form" "$c" 1)).isSome = true := by
    decide +kernel
  have htype : (answer r (prototypeText (movable true moveHandlers) 1)).isSome = true := by decide +kernel
  obtain ⟨settled, hsettled⟩ := Option.isSome_iff_exists.mp hpart
  obtain ⟨text, htext⟩ := Option.isSome_iff_exists.mp htype
  obtain ⟨methods, handlers, -, lines, -, -, -, h⟩ := (super_rewritten_iff (movable false widthHandlers) r).1
    "$core.CoreObject" "form" "$c" 1 settled rfl rfl (answer_eq_some.mp hsettled)
  obtain ⟨_, _, -, lines', -, -, -, h'⟩ := (super_rewritten_iff (movable true moveHandlers) r).2
    1 text (answer_eq_some.mp htext)
  exact ⟨⟨methods, handlers, lines, h⟩, _, lines', h'⟩

/-- Two methods with the same code leave a call of the base as it is, where their variable is defined. -/
theorem super_left :
    let methods := [(("", "reset"), resetMethod.2), (("", "clear"), resetMethod.2)]
    let c := { movable true {} with methods := ⟨methods.map fun entry => (entry.1, .prepared entry.2)⟩ }
    let r : Registry := { ns := "qml", buildId := "1" }
    (answer r (prototypeText c 1)).isSome = true ∧ Prepared c methods {} ∧
      (answer r (prototypeStage c methods {} 1 ([], 0))).map (fun out => out.1.map (containsText "@super.")) =
        some [true, false, false] := by
  exact ⟨by decide +kernel, ⟨rfl, rfl⟩, by decide +kernel⟩

end QmlScript.Registry
