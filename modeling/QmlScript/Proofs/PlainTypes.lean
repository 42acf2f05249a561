import QmlScript.Proofs.Reordering
import QmlScript.Proofs.Scanning

/-!
# Programs of plain types

A plain type extends the root of all types and declares nothing. Its section is known in closed form, so
that a program of plain types can be followed to its end: it has nothing in it that is copied or
replaced.
-/

namespace QmlScript.Registry

open List QmlScript.Script Package Text

variable {text name : String} {r r' : Registry} {parts order : List String} {s : List Char}

def MacroFree (s : String) : Prop := 'Y' ∉ s.toList

instance (s : String) : Decidable (MacroFree s) := inferInstanceAs (Decidable (_ ∉ _))

theorem macroFree_append (s t : String) : MacroFree (s ++ t) ↔ MacroFree s ∧ MacroFree t := by
  simp [MacroFree, not_or]

theorem MacroFree.append {s t : String} (hs : MacroFree s) (ht : MacroFree t) : MacroFree (s ++ t) :=
  (macroFree_append s t).mpr ⟨hs, ht⟩

theorem macroFree_intercalate {sep : String} (hsep : MacroFree sep)
    (h : ∀ part ∈ parts, MacroFree part) : MacroFree (sep.intercalate parts) := by
  induction parts with
  | nil =>
    rw [String.intercalate_nil]
    simp [MacroFree]
  | cons part parts ih =>
    have hpart := h part mem_cons_self
    have hrest := ih fun other ho => h other (mem_cons_of_mem _ ho)
    by_cases hnil : parts = []
    · rw [hnil, String.intercalate_singleton]
      exact hpart
    · rw [String.intercalate_cons_of_ne_nil hnil, macroFree_append, macroFree_append]
      exact ⟨⟨hpart, hsep⟩, hrest⟩

theorem copyArgs?_eq_none (h : 'Y' ∉ s) : copyArgs? s = none := by
  unfold copyArgs?
  cases hafter : after? "COPY_ARGS".toList s with
  | none => rfl
  | some rest =>
    rw [eq_append_of_after? hafter] at h
    exact absurd (mem_append_left rest (by decide)) h

theorem expandPieces_copyArgs (h : 'Y' ∉ s) :
    expandPieces (pieces copyArgs? s) = .ok (s.map fun c => [c]) := by
  unfold pieces
  induction s with
  | nil => rfl
  | cons c s ih =>
    rw [piecesFrom, copyArgs?_eq_none h]
    dsimp only
    rw [expandPieces, ih fun hs => h (mem_cons_of_mem _ hs)]
    rfl

theorem replaceArgs_of_macroFree (h : MacroFree text) : replaceArgs text = .ok text := by
  unfold replaceArgs
  rw [expandPieces_copyArgs h]
  show Except.ok (String.ofList (text.toList.map fun c => [c]).flatten) = _
  rw [← flatMap_def, flatMap_singleton', String.ofList_toList]

def plain (name : String) : Component :=
  { name, base := rootName, prototype := true, handlers := some {} }

theorem attachments_plain (name : String) : attachments (plain name) "$this" 3 = pure [] := by
  simp [attachments, attachHandlers, attachTable, HandlerKind.table, plain, handlersOf, functions_none, handlerLines]

theorem creators_plain (name : String) : creators (plain name) [] "$this" "$c" 2 = pure "" := by
  simp [creators, createParts, plain]

theorem setup_plain (name : String) :
    setup (plain name) [] "$this" "$c" 3 = pure ("\n" ++ (tabs 3 ++ "$this.completed()")) := by
  have hattachments := attachments_plain name
  have hrow : tabs 3 ++ "$this" ++ ".completed()" = tabs 3 ++ "$this.completed()" := by decide
  simp only [plain] at hattachments
  simp [setup, setupFront, setupBack, hattachments, animations, plain, ← hrow]

theorem prototypeText_plain (h : run (prototypeText (plain name) 1) r = (.ok text, r')) (hname : MacroFree name)
    (hclass : MacroFree (plain name).className) : MacroFree text := by
  have hsetup := setup_plain name
  have hcreators := creators_plain name
  simp only [plain] at hsetup hcreators hclass
  simp [prototypeText, prototypeFront, prototypeStage, prototypeBack, emitter_eq, propertyLines, hsetup, hcreators,
    plain, emitParts, check, preparedMethods, functions_none, prototypeMethodLines, prototypeHandlerLines,
    HandlerKind.table, handlersOf,
    handlerLines, run_pure, Table.values] at h
  rw [← h.1]
  simp +decide only [macroFree_append, Component.protoName, Component.localName, Component.baseProtoName,
    hclass, hname, true_and, if_false]
  refine macroFree_intercalate (by decide) ?_
  simp +decide only [forall_mem_cons, macroFree_append, hclass, and_true]

theorem constructorText_plain (h : run (constructorText (plain name)) r = (.ok text, r'))
    (hclass : MacroFree (plain name).className) (hpackage : MacroFree (mangle (plain name).package)) :
    MacroFree text := by
  have hbase : mangledBaseOf (plain name) = pure (mangle rootPackage ++ "." ++ rootName) := by
    simp [mangledBaseOf, findMangled, find, plain, NameStyle.write]
  rw [constructorText, hbase, pure_bind, run_pure] at h
  rw [← Except.ok.inj (Prod.mk.inj h).1]
  refine macroFree_intercalate (by decide) ?_
  have hctor : MacroFree (plain name).ctor := by simp [plain, MacroFree]
  simp +decide only [forall_mem_cons, macroFree_append, Component.localName, Component.baseProtoName,
    Component.baseLocalName, hclass, hpackage, hctor, and_true]

theorem sectionText_plain (h : run (sectionText (plain name)) r = (.ok text, r')) (hname : MacroFree name)
    (hclass : MacroFree (plain name).className) (hpackage : MacroFree (mangle (plain name).package)) :
    MacroFree text := by
  unfold sectionText at h
  rw [run_bind, run_modify] at h
  obtain ⟨ctor, r₁, hctor, h₁⟩ := run_bind_ok h
  obtain ⟨proto, r₂, hproto, h₂⟩ := run_bind_ok h₁
  rw [← Except.ok.inj (Prod.mk.inj h₂).1]
  simp +decide only [macroFree_append, prototypeText_plain hproto hname hclass,
    constructorText_plain hctor hclass hpackage, plain, hname, true_and]

def isPlain (c : Component) : Bool :=
  c.base = rootName && c.prototype && c.id.isNone && c.ctor = "" && c.prototypeCtor = "" &&
    c.properties.isEmpty && c.declared.entries.isEmpty && c.aliases.entries.isEmpty && c.choices.entries.isEmpty &&
    c.constants.entries.isEmpty && c.constProperties.entries.isEmpty && c.signals.isEmpty &&
    c.rows.isEmpty && c.methods.entries.isEmpty && c.children.isEmpty && c.assignments.entries.isEmpty &&
    c.animations.entries.isEmpty && c.lazyParts.entries.isEmpty && c.parts.isEmpty &&
    c.handlers.any fun h => h.changed.entries.isEmpty && h.signal.entries.isEmpty && h.key.entries.isEmpty

theorem eq_plain {c : Component} (h : isPlain c = true) : c = plain c.name := by
  have htable : ∀ {κ α : Type} (t : Table κ α), t.entries = [] → t = {} := by
    rintro κ α ⟨_⟩ rfl
    rfl
  simp only [isPlain, Bool.and_eq_true, decide_eq_true_eq, List.isEmpty_iff, Option.any_eq_true,
    Option.isNone_iff_eq_none, and_assoc] at h
  obtain ⟨hbase, hproto, hid, hctor, hcode, hproperties, hdeclared, haliases, hchoices, hconstants, hconst, hsignals,
    hrows, hmethods, hchildren, hassignments, hanimations, hlazy, hparts, ⟨changed, signal, key⟩,
    hhandlers, hchanged, hsignal, hkey⟩ := h
  cases c
  simp only at *
  simp only [plain, hbase, hproto, hid, hctor, hcode, hproperties, htable _ hdeclared, htable _ haliases,
    htable _ hchoices, htable _ hconstants, htable _ hconst, hsignals, hrows, htable _ hmethods, hchildren,
    htable _ hassignments, htable _ hanimations, htable _ hlazy, hparts, hhandlers, htable _ hchanged,
    htable _ hsignal, htable _ hkey]

/-- Whether the section is that of a plain type without macros in names. -/
def isFreePlain (P : Registry) (name : String) : Bool :=
  match P.components.get? name with
  | some c => isPlain c && MacroFree c.name && MacroFree c.className && MacroFree (mangle c.package)
  | none => false

theorem sectionOf_macroFree {P : Registry} (hplain : isFreePlain P name = true)
    (h : (sectionRun P name).1 = .ok (sectionOf P name)) : MacroFree (sectionOf P name) := by
  unfold isFreePlain at hplain
  cases hc : P.components.get? name with
  | none => simp [hc] at hplain
  | some c =>
    simp only [hc, Bool.and_eq_true, decide_eq_true_eq] at hplain
    obtain ⟨⟨⟨hcheck, hname⟩, hclass⟩, hpackage⟩ := hplain
    have hrun : run (sectionText c) P.unmarked = (.ok (sectionOf P name), (sectionRun P name).2) := by
      rw [← run_component_bind (r := P.unmarked) hc]
      exact Prod.ext h rfl
    rw [eq_plain hcheck] at hrun hclass hpackage
    exact sectionText_plain hrun hname hclass hpackage

/-- The objects of packages can be made, without macros in their names. -/
def PackagesFree (packages : NameSet) : Prop :=
  ∃ lines, PackageTree.lines "_globals" (.ofPackages packages) = .ok lines ∧ ∀ line ∈ lines, MacroFree line

theorem macroFree_join (h : ∀ part ∈ parts, MacroFree part) : MacroFree (String.join parts) := by
  unfold MacroFree
  rw [String.toList_join, mem_flatMap]
  rintro ⟨part, hpart, hmem⟩
  exact h part hpart hmem

theorem run_prologue_macroFree (himports : r.imports.entries = []) (h : PackagesFree r.usedPackages) :
    ∃ text, run prologue r = (.ok text, r) ∧ MacroFree text := by
  have hkeys : r.imports.keys = [] := by rw [Table.keys, himports]; rfl
  have hcore : r.imports.get? coreScript = none := by rw [Table.get?, himports]; rfl
  obtain ⟨lines, hlines, hfree⟩ := h
  refine ⟨"\n".intercalate (lines ++ []), ?_, macroFree_intercalate (by decide) (by simpa using hfree)⟩
  unfold prologue
  rw [run_bind, run_modify]
  dsimp only
  rw [run_bind, run_get]
  dsimp only
  rw [hkeys, foldl_nil, hlines]
  rw [run_bind, run_check]
  dsimp only
  rw [hcore]
  rfl

theorem macroFree_programText {ns packages sections : String} (hns : MacroFree ns)
    (hpackages : MacroFree packages) (hsections : MacroFree sections) :
    MacroFree (programText ns packages sections "") := by
  -- literals are decided one by one: unifying a long one with an append is slow
  have hbody : MacroFree ("/** @const */\nvar _globals = exports\n" ++ packages ++ "\n" ++
      "//========================================\n\n" ++
      "/** @const @type \x7b!CoreObject\x7d */\nvar core = _globals.core.core\n" ++
      sections ++ "\n" ++ "" ++ "\n") :=
    .append (.append (.append (.append (.append (.append (.append (.append (by decide +kernel) hpackages)
      (by decide)) (by decide +kernel)) (by decide +kernel)) hsections) (by decide)) (by decide)) (by decide)
  unfold programText wrap
  refine .append (.append (.append hns (by decide)) (.append (.append ?_ hbody) ?_)) (by decide)
  · exact .append (.append (by decide +kernel) (by decide)) (by decide)
  · decide +kernel

theorem generate_plain {P : Registry} (hsections : (run generateComponents r).1.isOk = true)
    (hprep : (run prepareProgram r).2 = P) (hemitted : emitted P = .ok order)
    (hplain : ∀ name ∈ order, isFreePlain P name = true) (hns : MacroFree (run generateComponents r).2.ns)
    (himports : (run generateComponents r).2.imports.entries = [])
    (hpackages : PackagesFree (run generateComponents r).2.usedPackages) :
    (run generate r).1.isOk = true := by
  obtain ⟨text, htext⟩ := exists_of_isOk hsections
  have hfree : MacroFree text := by
    obtain ⟨Q, sections, order', hQ, hemitted', hp, ho, rfl⟩ := generateComponents_ok htext
    obtain rfl : Q = P := by rw [← hprep, hQ]
    obtain rfl : order = order' := Except.ok.inj (hemitted.symm.trans hemitted')
    have hc := hp.contains hQ ho
    rw [hc.text_eq]
    refine macroFree_join fun part hpart => ?_
    obtain ⟨name, hname, rfl⟩ := mem_map.mp hpart
    exact sectionOf_macroFree (hplain name hname) (hc.generated name hname)
  obtain ⟨packages, hprologue, hpackages⟩ := run_prologue_macroFree himports hpackages
  have himportTexts : importTexts (run generateComponents r).2 = "" := by
    rw [importTexts, himports]
    rfl
  have hprogram : MacroFree (programText (run generateComponents r).2.ns packages text
      (importTexts (run generateComponents r).2)) := by
    rw [himportTexts]
    exact macroFree_programText hns hpackages hfree
  have hgenerate : generate = generateComponents >>= finishProgram := rfl
  rw [hgenerate, run_bind_of_ok (run_eq_of_ok htext), finishProgram,
    run_bind_of_ok hprologue, run_bind, run_get]
  dsimp only
  rw [replaceArgs_of_macroFree hprogram]
  rfl

/-- Whether a program without scripts has only plain types. -/
def isPlainProgram (r : Registry) (order : List String) : Bool :=
  (run generateComponents r).1.isOk && (emitted (run prepareProgram r).2).toOption == some order &&
    order.all (isFreePlain (run prepareProgram r).2) && decide (MacroFree (run generateComponents r).2.ns) &&
    (run generateComponents r).2.imports.entries.isEmpty

theorem generate_of_isPlainProgram (h : isPlainProgram r order = true)
    (hpackages : PackagesFree (run generateComponents r).2.usedPackages) :
    emitted (run prepareProgram r).2 = .ok order ∧ ∃ text, (run generate r).1 = .ok text := by
  simp only [isPlainProgram, Bool.and_eq_true, beq_iff_eq, decide_eq_true_eq, all_eq_true, List.isEmpty_iff] at h
  obtain ⟨⟨⟨⟨hsections, horder⟩, hplain⟩, hns⟩, himports⟩ := h
  have hemitted : emitted (run prepareProgram r).2 = .ok order := by
    cases hrun : emitted (run prepareProgram r).2 with
    | error e => simp [hrun, Except.toOption] at horder
    | ok order' =>
      rw [hrun] at horder
      rw [Option.some.inj horder]
  exact ⟨hemitted, exists_of_isOk (generate_plain hsections rfl hemitted hplain hns himports hpackages)⟩

end QmlScript.Registry
