import QmlScript.Proofs.References

/-!
# Values that are assigned as they are

A value is emitted as it is exactly if nothing in it is rewritten and it depends on nothing. A string literal is no
exception: what is inside of its quotes is rewritten like the rest.
-/

namespace QmlScript.Registry

open QmlScript.Script List Text

variable {c : Component} {parent target value name : String} {indent : Nat} {r r' : Registry}
  {transform : String → Work String}

/-- Word characters, the first of which is no digit. -/
def isPropertyName (name : String) : Bool :=
  name.toList.all isWordChar && name.toList.head?.any fun d => !d.isDigit

/-- The lines that give a value as it is to a property, once. -/
def plainLines (parent target value : String) (indent : Nat) : List String :=
  let (owner, slot, name) := assignmentTarget parent target
  ["//assigning " ++ target ++ " to " ++ value,
    tabs indent ++ owner ++ "._removeUpdater('" ++ name ++ "'); " ++ slot ++ " = " ++ value ++ ";"]

/-- Nothing in a value is rewritten, and it depends on nothing. -/
structure Inert (c : Component) (r : Registry) (value : String) : Prop where
  choices : ∀ choice ∈ findAll choiceValue? value.toList, ¬ Knows c r choice.1
  name : ¬ namePlaceholder.toList <:+: value.toList
  scale : ¬ scalePlaceholder.toList <:+: value.toList
  references : findAll reference? value.toList = []
  language : isLocalized value.toList = false

theorem replacement_eq (h : '\\' ∉ name.toList) (whole : String) : replacement name whole = .ok name.toList := by
  have hpieces : ∀ bound (s : List Char), s.length < bound → '\\' ∉ s →
      replacementPieces bound s = .ok (s.map .char) := by
    intro bound
    induction bound with
    | zero => intro s hs; omega
    | succ bound ih =>
      intro s hs hslash
      cases s with
      | nil => rfl
      | cons d s =>
        obtain ⟨hd, hrest⟩ := not_or.mp (mt mem_cons.mpr hslash)
        rw [replacementPieces, ih s (Nat.lt_of_succ_lt_succ hs) hrest]
        · rfl
        · exact fun heq => hd heq.symm
  rw [replacement, hpieces _ _ (Nat.lt_succ_self _) h]
  show Except.ok ((name.toList.map Piece.char).flatMap _) = _
  rw [flatMap_map]
  exact congrArg Except.ok (flatMap_singleton' _)

theorem measuredName_cases (h : '.' ∉ name.toList) :
    measuredName name = name ∨ measuredName name = "width" ∨ measuredName name = "height" := by
  have hcut : cutLastText? '.' name = none := by
    rw [cutLastText?, Option.map_eq_none_iff, Option.eq_none_iff_forall_ne_some]
    rintro ⟨front, back⟩ hsome
    exact h ((cutLast?_eq_some hsome).1 ▸ by simp)
  rw [measuredName, hcut]
  by_cases hx : name = "x"
  · exact .inr (.inl (if_pos hx))
  · by_cases hy : name = "y"
    · exact .inr (.inr ((if_neg hx).trans (if_pos hy)))
    · exact .inl ((if_neg hx).trans (if_neg hy))

theorem lt_of_isWordChar {d : Char} (h : isWordChar d = true) (hdigit : d.isDigit = false) : '<' < d := by
  have hcode : 60 < d.toNat := by
    unfold isWordChar at h
    split at h
    · simp only [Char.isAlphanum, hdigit, Bool.or_false, Bool.or_eq_true, beq_iff_eq] at h
      rcases h with h | rfl
      · rcases Bool.or_eq_true_iff.mp h with h | h
        · exact Nat.lt_of_lt_of_le (by decide) (code_of_isUpper h).1
        · have hlow : 97 ≤ d.toNat := of_decide_eq_true (Bool.and_eq_true_iff.mp h).1
          omega
      · decide
    · omega
  exact hcode

theorem exists_measuredName (h : isPropertyName name = true) :
    ∃ d rest, '<' < d ∧ replacement (measuredName name) namePlaceholder = .ok (d :: rest) := by
  simp only [isPropertyName, Bool.and_eq_true, all_eq_true] at h
  obtain ⟨hword, hhead⟩ := h
  have hnot : ∀ d, isWordChar d = false → d ∉ name.toList := by
    intro d hd hmem
    rw [hword d hmem] at hd
    cases hd
  rcases measuredName_cases (hnot '.' (by decide)) with heq | heq | heq
  · obtain ⟨d, hd, hdigit⟩ := (Option.any_eq_true _ _).mp hhead
    obtain ⟨rest, hrest⟩ := head?_eq_some_iff.mp hd
    refine ⟨d, rest, ?_, by rw [heq, replacement_eq (hnot '\\' (by decide)), hrest]⟩
    exact lt_of_isWordChar (hword d (by simp [hrest])) (by simpa using hdigit)
  · exact ⟨'w', "idth".toList, by decide, by rw [heq]; rfl⟩
  · exact ⟨'h', "eight".toList, by decide, by rw [heq]; rfl⟩

theorem fillTemplate_cases (h : isPropertyName name = true) (value : String) :
    ∃ out, fillTemplate name value = .ok out ∧
      (¬ namePlaceholder.toList <:+: value.toList ∧ ¬ scalePlaceholder.toList <:+: value.toList ∧ out = value ∨
        (namePlaceholder.toList <:+: value.toList ∨ scalePlaceholder.toList <:+: value.toList) ∧
          value.toList < out.toList) := by
  obtain ⟨d, rest, hd, hname⟩ := exists_measuredName h
  obtain ⟨named, hnamed⟩ : ∃ named, replaceAll namePlaceholder.toList (d :: rest) value.toList = named := ⟨_, rfl⟩
  have hfirst : (¬ namePlaceholder.toList <:+: value.toList ∧ named = value.toList) ∨
      (namePlaceholder.toList <:+: value.toList ∧ value.toList < named) := by
    rw [← hnamed]
    exact replaceAll_cases hd "property-name>".toList rest value.toList
  obtain ⟨out, hout⟩ : ∃ out, replaceAll scalePlaceholder.toList "virtualScale".toList named = out := ⟨_, rfl⟩
  have hsecond : (¬ scalePlaceholder.toList <:+: named ∧ out = named) ∨
      (scalePlaceholder.toList <:+: named ∧ named < out) := by
    rw [← hout]
    exact replaceAll_cases (show '<' < 'v' by decide) "scale-property-name>".toList "irtualScale".toList named
  refine ⟨String.ofList out, by rw [fillTemplate, hname, ← hout, ← hnamed]; rfl, ?_⟩
  rw [String.toList_ofList]
  rcases hfirst with ⟨hname, rfl⟩ | ⟨hname, hlt⟩
  · rcases hsecond with ⟨hscale, rfl⟩ | ⟨hscale, hlt⟩
    · exact .inl ⟨hname, hscale, String.ofList_toList⟩
    · exact .inr ⟨.inr hscale, hlt⟩
  · rcases hsecond with ⟨-, rfl⟩ | ⟨-, hlt'⟩
    · exact .inr ⟨.inl hname, hlt⟩
    · exact .inr ⟨.inl hname, hlt.trans hlt'⟩

theorem run_dependencies_of_none (hnone : findAll reference? value.toList = [])
    (hlanguage : isLocalized value.toList = false) (r : Registry) :
    run (dependencies parent value transform) r = (.ok (value, []), r) := by
  have hpieces : ∀ s : List Char, resolvePieces parent transform (s.map .inl) = pure (s, []) := by
    intro s
    induction s with
    | nil => rfl
    | cons d s ih => rw [map_cons, resolvePieces, ih]; rfl
  have hmap : pieces reference? value.toList = value.toList.map .inl :=
    pieces_eq_map fun a ha => by simpa [hnone] using mem_findAll_iff.mpr ha
  rw [dependencies, hlanguage, hmap, hpieces, pure_bind, run_pure]
  simp [orderedSet]

theorem findAll_eq_nil_of_script {deps : List Dependency}
    (h : run (dependencies parent value transform) r = (.ok (value, deps), r')) (hparent : '\x7b' ∉ parent.toList) :
    findAll reference? value.toList = [] := by
  obtain ⟨⟨out, found⟩, s, hpieces, h⟩ := run_bind_ok h
  have hout : String.ofList out = value := (Prod.mk.inj (Except.ok.inj (Prod.mk.inj h).1)).1
  have hvalue : out = (pieces reference? value.toList).flatMap (Sum.elim List.singleton referenceText) := by
    rw [takes_reference?.flatMap_pieces, ← hout, String.toList_ofList]
  rw [eq_nil_iff_forall_not_mem]
  exact fun inside hmem => (resolved_of_run hpieces).eq_of_flatMap hparent hvalue inside (mem_findAll_iff.mp hmem)

theorem assignedLines_eq_plainLines {filled script : String} {deps : List Dependency}
    (h : assignedLines parent target filled indent script deps = plainLines parent target value indent) :
    filled = value ∧ script = value ∧ deps = [] := by
  unfold assignedLines plainLines at h
  rcases assignmentTarget parent target with ⟨owner, slot, name⟩
  cases deps with
  | nil =>
    obtain ⟨hcomment, hline⟩ := List.cons.inj h
    have hscript := (List.cons.inj hline).1
    rw [String.append_right_inj] at hcomment
    rw [String.append_left_inj, String.append_right_inj] at hscript
    exact ⟨hcomment, hscript, rfl⟩
  | cons dep deps =>
    have hline := (List.cons.inj (List.cons.inj h).2).1
    simp only [String.append_assoc, String.append_right_inj] at hline
    have hchars := congrArg (fun s => s.toList.drop 4) hline
    simp at hchars

/-- A value is emitted as it is, and without dependencies, exactly if nothing in it looks like something that is
rewritten. That it is a string literal does not matter. -/
theorem assignText_plain_iff (hparent : '\x7b' ∉ parent.toList)
    (hname : isPropertyName ((splitText '.' target).getLastD "") = true) :
    (run (assignText c parent indent target value) r).1 = .ok (plainLines parent target value indent) ↔
      Inert c r value := by
  obtain ⟨chosen, s, hchosen, hchoices⟩ := run_resolveChoices c value r
  obtain ⟨filled, hfilled, htemplate⟩ := fillTemplate_cases hname chosen
  have hrun : run (assignText c parent indent target value) r =
      match run (dependencies parent filled (pathRoot c none)) s with
      | (.ok (script, deps), s) => (.ok (assignedLines parent target filled indent script deps), s)
      | (.error e, s) => (.error e, s) := by
    rw [assignText]
    show run (resolveChoices c value >>= _) r = _
    rw [run_bind_of_ok hchosen]
    show run (check (fillTemplate ((splitText '.' target).getLastD "") chosen) >>= _) s = _
    rw [run_bind, run_check, hfilled]
    show run (dependencies parent filled (pathRoot c none) >>= _) s = _
    rw [run_bind]
    rcases run (dependencies parent filled (pathRoot c none)) s with ⟨e | ⟨script, deps⟩, s'⟩ <;> rfl
  rw [hrun]
  constructor
  · intro h
    rcases hdeps : run (dependencies parent filled (pathRoot c none)) s with ⟨e | ⟨script, deps⟩, s'⟩
    · rw [hdeps] at h
      cases h
    · rw [hdeps] at h
      obtain ⟨rfl, rfl, rfl⟩ := assignedLines_eq_plainLines (Except.ok.inj h)
      rcases hchoices with ⟨hnone, rfl, rfl⟩ | ⟨-, hlt⟩
      · rcases htemplate with ⟨hplace, hscale, -⟩ | ⟨-, hlt⟩
        · have hself := (dependencies_eq_nil_iff hdeps).mp rfl
          rw [selfContained, Bool.and_eq_true, Bool.not_eq_true'] at hself
          exact ⟨hnone, hplace, hscale, findAll_eq_nil_of_script hdeps hparent, hself.1⟩
        · exact absurd hlt (lt_irrefl _)
      · rcases htemplate with ⟨-, -, rfl⟩ | ⟨-, hlt'⟩
        · exact absurd hlt (lt_irrefl _)
        · exact absurd (hlt.trans hlt') (lt_irrefl _)
  · intro h
    rcases hchoices with ⟨-, rfl, rfl⟩ | ⟨⟨choice, hmem, hknown⟩, -⟩
    · rcases htemplate with ⟨-, -, rfl⟩ | ⟨hplace, -⟩
      · rw [run_dependencies_of_none h.references h.language]
        rfl
      · exact absurd hplace (not_or.mpr ⟨h.name, h.scale⟩)
    · exact absurd hknown (h.choices choice hmem)

theorem assignText_plain_iff_greeting :
    (run (assignText { name := "a.X", base := "Item", prototype := true } "$this" 1 "title" "(\"hi\")")
        { ns := "qml", buildId := "1" }).1 = .ok (plainLines "$this" "title" "(\"hi\")" 1) ↔
      Inert { name := "a.X", base := "Item", prototype := true } { ns := "qml", buildId := "1" } "(\"hi\")" :=
  assignText_plain_iff (by decide) (by decide)

/-- The words of a literal are taken for a call of a localizing function. -/
theorem literal_localized :
    (run (assignText { name := "a.X", base := "Item", prototype := true } "$this" 1 "p" "(\"call tr(x)\")")
        { ns := "qml", buildId := "1" }).1 = .ok ["//assigning p to (\"call tr(x)\")",
    "\t$this._replaceUpdater('p', function() \x7b $this.p = (\"call tr(x)\") \x7d, [$this._context,'language'])"] := by
  rfl

end QmlScript.Registry
