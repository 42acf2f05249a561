import QmlScript.Proofs.Expression.Unambiguous

/-!
# Expressions in assignments

A component that gives an expression to a property is read as a tree with that one assignment. Its
value is the text of the expression with references in the place of names, in parentheses.
-/

namespace QmlScript.Grammar

open QmlScript.Grammar.Parser List

variable {c c' : Cursor} {notes notes' : Notes} {s t rest : List Char} {bound : Nat} {number : Bool}

theorem declaration_misses (hf : c.Faces ('\x7d' :: s)) : Misses (declarationUpTo bound) c notes := by
  have hs : Solid ('\x7d' :: s) := solid_cons rfl
  have hkeyword : ∀ (word : String) {x : Char} {w : List Char}, word.toList = x :: w → x ≠ '\x7d' →
      Misses (keyword word) c notes := fun _ _ _ hw hne => keyword_misses_of_ne hw hf hs hne
  have hproperty : Misses (keyword "property") c notes := hkeyword "property" rfl (by decide)
  have hpath : Misses pathName c notes := name_misses hf hs (by decide)
  have hasync : (keyword "async").optional c notes = (.done none c, notes) :=
    optional_misses (hkeyword "async" rfl (by decide))
  have hcomponent : ∀ bound, Misses (componentUpTo bound) c notes := by
    rintro (_ | bound)
    · exact ⟨_, _, rfl⟩
    · have htype : Misses componentType (c.reach ('\x7d' :: s)) notes :=
        name_misses hf.reach_head.faces hs (by decide)
      rw [componentUpTo, componentOf]
      exact misses_bind_of_done (place_eq hf hs) htype.bind
  cases bound with
  | zero => exact ⟨_, _, rfl⟩
  | succ bound =>
    rw [declarationUpTo, declarationOf]
    refine misses_choice ?_
    simp only [forall_mem_cons, not_mem_nil, false_imp_iff, implies_true, and_true]
    refine ⟨?_, ?_, ?_, hproperty.bind, hproperty.bind, hproperty.bind,
      (hproperty.bind.orElse hproperty.bind).bind, ?_, hpath.bind, hpath.bind, hcomponent bound, ?_, ?_,
      hpath.bind, ?_⟩
    · exact (hkeyword "ListElement" rfl (by decide)).bind
    · exact (hkeyword "Behavior" rfl (by decide)).bind
    · exact (hkeyword "signal" rfl (by decide)).bind
    · exact (hkeyword "id" rfl (by decide)).bind
    · exact misses_bind_of_done hasync hpath.bind.bind
    · exact misses_bind_of_done hasync (hkeyword "function" rfl (by decide)).bind
    · exact (hkeyword "const" rfl (by decide)).bind

theorem declaration_of_assignment (bound : Nat) {reply : Reply Marked} (hf : c.Faces ('p' :: ':' :: s))
    (hassign : assignmentDeclaration c notes = (reply, notes')) (hreply : reply.settles = true) :
    declarationUpTo (bound + 1) c notes = (reply, notes') := by
  have hs : Solid ('p' :: ':' :: s) := solid_cons rfl
  have hkeyword : ∀ (word : String) {x : Char} {w : List Char}, word.toList = x :: w → x ≠ 'p' →
      Misses (keyword word) c notes := fun _ _ _ hw hne => keyword_misses_of_ne hw hf hs hne
  have hproperty : Misses (keyword "property") c notes := keyword_misses hf hs (by simp [Text.after?])
  rw [declarationUpTo, declarationOf]
  refine choice_settled hreply (hkeyword "ListElement" rfl (by decide)).bind ?_
  refine choice_settled hreply (hkeyword "Behavior" rfl (by decide)).bind ?_
  refine choice_settled hreply (hkeyword "signal" rfl (by decide)).bind ?_
  refine choice_settled hreply hproperty.bind ?_
  refine choice_settled hreply hproperty.bind ?_
  refine choice_settled hreply hproperty.bind ?_
  refine choice_settled hreply (hproperty.bind.orElse hproperty.bind).bind ?_
  refine choice_settled hreply (hkeyword "id" rfl (by decide)).bind ?_
  exact choice_head hassign hreply

/-- The source of a component that gives an expression to a property. -/
def assigning (e : Expr) : String := "T \x7b p: " ++ e.text Name.plain ++ "; \x7d"

def Notes.declared (notes : Notes) : Notes :=
  { notes with
    root := notes.root <|> notes.pending
    pending := none
    anchor := .here notes.marks
    marks := notes.marks + 1
    docs :=
      match notes.pending with
      | some text => (notes.marks, text) :: notes.docs
      | none => notes.docs }

theorem declare_eq (c : Cursor) (notes : Notes) : declare c notes = (.done notes.marks c, notes.declared) := rfl

def valueOf (target : String) : Parser Marked := do
  let value ← checkedExpression
  mark ";"
  return .assignment (← declare) target (.text value)

theorem assignment_eq_valueOf (hc : c.At (' ' :: ['p'] ++ ([':'] ++ s))) :
    assignmentDeclaration c notes = valueOf "p" (c.reach s) notes := by
  have hf : c.Faces (['p'] ++ ([':'] ++ s)) := hc.faces_blank (by decide)
  have hname : pathName c notes = (.done "p" (c.reach ([':'] ++ s)), notes) :=
    (hf.meets (solid_cons rfl)).name_done (by decide) (by simp) (by simpa using (by decide : isPathChar ':' = false))
  have hcolon : mark ":" (c.reach ([':'] ++ s)) notes = (.done () (c.reach s), notes) := by
    rw [← hf.reach_reach]
    exact mark_done rfl hf.reach.faces (solid_cons rfl)
  refine (bind_done hname).trans ?_
  exact bind_done hcolon

theorem valueOf_done {target a : String} (hc : c.At (' ' :: s ++ ([';'] ++ rest))) (hfault : notes.fault = none)
    (h : ∀ bound, 3 * s.length + 3 ≤ bound → Reads (conditional bound) s a ([';'] ++ rest)) :
    valueOf target c notes =
      (.done (.assignment notes.marks target (.text (parenthesised a))) (c.reach rest), notes.declared) := by
  have hbound : 3 * s.length + 3 ≤ 3 * c.left + 3 := by
    rw [hc.left]
    simp only [length_append, length_cons]
    omega
  have hinner : conditional (3 * c.left + 3) c notes = (.done a (c.reach ([';'] ++ rest)), notes) :=
    (h _ hbound).behind_blank c notes hc
  have hvalue : checkedExpression c notes = (.done (parenthesised a) (c.reach ([';'] ++ rest)), notes) :=
    checked_done (telling_done (bind_done hinner)) hfault
  have hend : mark ";" (c.reach ([';'] ++ rest)) notes = (.done () (c.reach rest), notes) := by
    rw [← hc.reach_reach]
    exact mark_done rfl hc.reach.faces (solid_cons rfl)
  rw [valueOf, bind_eq, bind_done hvalue, bind_eq, bind_done hend, bind_eq, bind_done (declare_eq _ notes)]
  rfl

theorem valueOf_stops (target : String) {a : String} (hs : Solid (s ++ ([';'] ++ rest)))
    (hunsigned : Unsigned (s ++ ([';'] ++ rest))) (hc : c.At (' ' :: s ++ ([';'] ++ rest)))
    (hfault : notes'.fault.isSome = true)
    (hoperand : operand (3 * c.left + 1) c notes = (.done a (c.reach ([';'] ++ rest)), notes')) :
    ∃ offset lack, valueOf target c notes = (.stop offset lack, notes') := by
  have hf : c.Faces (s ++ ([';'] ++ rest)) := hc.faces_blank (by decide)
  have hclose : Closes 10 true ([';'] ++ rest) := .mark (.inl rfl)
  have hat : (c.reach ([';'] ++ rest)).At ([';'] ++ rest) := hf.reach
  have hunary := (levels_zero_unsigned hs hunsigned hf).trans hoperand
  have hlevels := levels_lift (Nat.zero_le 10) (Nat.le_refl 10) hclose hat hunary
  have hconditional := conditional_of_levels (.mark (.inl rfl)) hat hlevels
  have hvalue : checkedExpression c notes = (.stop c.offset .anything, notes') :=
    checked_stop (telling_done (bind_done hconditional)) hfault
  exact ⟨_, _, by rw [valueOf, bind_eq, bind_stop hvalue]⟩

theorem assignment_done (notes : Notes) {a : String}
    (hc : c.At (' ' :: ['p'] ++ ([':'] ++ (' ' :: s ++ ([';'] ++ rest))))) (hfault : notes.fault = none)
    (h : ∀ bound, 3 * s.length + 3 ≤ bound → Reads (conditional bound) s a ([';'] ++ rest)) :
    assignmentDeclaration c notes =
      (.done (.assignment notes.marks "p" (.text (parenthesised a))) (c.reach rest), notes.declared) := by
  have hvalueAt : c.At ((' ' :: ['p'] ++ [':']) ++ (' ' :: s ++ ([';'] ++ rest))) := by simpa using hc
  have hreach : (c.reach (' ' :: s ++ ([';'] ++ rest))).reach rest = c.reach rest := by
    have hlong : c.At ((' ' :: ['p'] ++ [':']) ++ ((' ' :: s ++ [';']) ++ rest)) := by simpa using hc
    rw [← append_assoc]
    exact hlong.reach_reach
  rw [assignment_eq_valueOf hc, valueOf_done hvalueAt.reach hfault h, hreach]

def bodyChars (s : List Char) : List Char :=
  ' ' :: ['p'] ++ ([':'] ++ (' ' :: s ++ ([';'] ++ [' ', '\x7d'])))

/-- The characters of a source that gives an expression to a property. -/
def assigningChars (s : List Char) : List Char := ['T'] ++ ([' ', '\x7b'] ++ bodyChars s)

abbrev bodyStart (s : List Char) : Cursor := (Cursor.ofText (assigningChars s)).reach (bodyChars s)

theorem at_ofText (s : List Char) : (Cursor.ofText s).At s := ⟨rfl, rfl⟩

theorem component_assigning (s : List Char) (notes : Notes) :
    component (.ofText (assigningChars s)) notes =
      bodyOf "T" 0 (declarationUpTo (3 * (assigningChars s).length + 2)) (bodyStart s) notes := by
  rw [bodyStart]
  have hc := at_ofText (assigningChars s)
  have hoffset : (Cursor.ofText (assigningChars s)).offset = 0 := rfl
  generalize Cursor.ofText (assigningChars s) = c at hc hoffset ⊢
  have hf : c.Faces (['T'] ++ ([' ', '\x7b'] ++ bodyChars s)) := hc.faces
  have hsolid : Solid (['T'] ++ ([' ', '\x7b'] ++ bodyChars s)) :=
    solid_cons rfl
  have hplace : place c notes = (.done 0 c, notes) := by
    have hreach : c.reach (['T'] ++ ([' ', '\x7b'] ++ bodyChars s)) = c := hc.reach_self
    rw [place_eq hf hsolid, hreach, hoffset]
  have htype : componentType c notes = (.done "T" (c.reach ([' ', '\x7b'] ++ bodyChars s)), notes) :=
    (hf.meets hsolid).name_done (by decide) (by simp) (by simpa using (by decide : isPathChar ' ' = false))
  have hopen : mark "\x7b" (c.reach ([' ', '\x7b'] ++ bodyChars s)) notes =
      (.done () (c.reach (bodyChars s)), notes) := by
    rw [← hf.reach_reach]
    exact mark_done rfl (hf.reach.faces_blank (by decide)) (solid_cons rfl)
  have hleft : 3 * c.left + 3 = (3 * (assigningChars s).length + 2) + 1 := by rw [hc.left]
  rw [component, hleft, componentUpTo, componentOf]
  refine (bind_done hplace).trans ?_
  refine (bind_done htype).trans ?_
  exact bind_done hopen

theorem at_body (s : List Char) : (bodyStart s).At (bodyChars s) := by
  have hc : (Cursor.ofText (assigningChars s)).At ((['T'] ++ [' ', '\x7b']) ++ bodyChars s) :=
    at_ofText (assigningChars s)
  exact hc.reach

theorem source_done {node : Marked} (h : assignmentDeclaration (bodyStart s) notes =
      (.done node ((bodyStart s).reach [' ', '\x7d']), notes')) :
    ∃ c, source (.ofText (assigningChars s)) notes =
      (.done (.component notes'.marks "T" [node]) c, notes'.declared) := by
  have hcomponent := component_assigning s notes
  have hc := at_body s
  generalize bodyStart s = c at hc h hcomponent
  have hassign := declaration_of_assignment (3 * (assigningChars s).length + 1) (hc.faces_blank (by decide)) h rfl
  have hbrace : c.At ((' ' :: ['p'] ++ [':'] ++ (' ' :: s) ++ [';']) ++ ([' ', '\x7d'] ++ [])) := by
    simpa [bodyChars] using hc
  have hend : (c.reach [' ', '\x7d']).At [' ', '\x7d'] := hbrace.reach
  have hnothing : (c.reach []).At [] := by
    have hall : c.At (bodyChars s ++ []) := by simpa using hc
    exact hall.reach
  have hbody : (declarationUpTo (3 * (assigningChars s).length + 2)).many c notes =
      (.done [node] (c.reach [' ', '\x7d']), notes') :=
    manyUpTo_cons hassign (manyUpTo_misses (declaration_misses (hend.faces_blank (by decide))) _)
  have hclose : mark "\x7d" (c.reach [' ', '\x7d']) notes' = (.done () (c.reach []), notes') := by
    have hreach : (c.reach [' ', '\x7d']).reach [] = c.reach [] := hbrace.reach_reach
    rw [← hreach]
    exact mark_done rfl (hend.faces_blank (by decide)) (solid_cons rfl)
  have htype : checkType "T" 0 (c.reach []) notes' = (.done () (c.reach []), notes') := rfl
  have hdone : component (.ofText (assigningChars s)) notes =
      (.done (.component notes'.marks "T" [node]) (c.reach []), notes'.declared) := by
    rw [hcomponent, bodyOf, bind_eq, bind_done hbody, bind_eq, bind_done hclose, bind_eq, bind_done htype,
      bind_eq, bind_done (declare_eq _ _)]
    rfl
  have hplace : place (c.reach []) notes'.declared = (.done (c.reach []).offset (c.reach []), notes'.declared) := by
    rw [place_eq hnothing.faces solid_nil, hnothing.reach_self]
  refine ⟨c.reach [], ?_⟩
  rw [source, bind_eq, bind_done hdone]
  refine (bind_done hplace).trans ?_
  simp [hnothing.ahead]

theorem source_stops {offset : Nat} {lack : Lack} (h : assignmentDeclaration (bodyStart s) notes =
      (.stop offset lack, notes')) :
    source (.ofText (assigningChars s)) notes = (.stop offset lack, notes') := by
  have hassign :=
    declaration_of_assignment (3 * (assigningChars s).length + 1) ((at_body s).faces_blank (by decide)) h rfl
  have hcomponent : component (.ofText (assigningChars s)) notes = (.stop offset lack, notes') := by
    rw [component_assigning, bodyOf, bind_eq]
    refine bind_stop ?_
    unfold Parser.many Parser.manyUpTo
    simp only [hassign]
  rw [source, bind_eq]
  exact bind_stop hcomponent

theorem toList_assigning (e : Expr) : (assigning e).toList = assigningChars (e.text Name.plain).toList := by
  simp [assigning, assigningChars, bodyChars]

def History.start (history : History) : Notes := { pending := history.pending, anchor := history.anchor }

theorem parse_result_of_done {history : History} {text : String} {tree : Marked}
    (h : source (.ofText text.toList) history.start = (.done tree c, notes)) (hfault : notes.fault = none) :
    (parse history text).result = .ok (notes.resolve tree) := by
  rw [History.start] at h
  rw [parse, h]
  simp only [hfault]

/-- What is read as an expression is the value of the property it is given to. -/
theorem parse_result_of_reads (history : History) {a : String}
    (h : ∀ bound, 3 * s.length + 3 ≤ bound → Reads (conditional bound) s a [';', ' ', '\x7d']) :
    (parse history (String.ofList (assigningChars s))).result = .ok (.component history.pending "T"
      [.assignment history.pending "p" (.text (parenthesised a))]) := by
  obtain ⟨c, hsource⟩ := source_done (assignment_done history.start (at_body s) rfl h)
  rw [← String.toList_ofList (l := assigningChars s)] at hsource
  rw [parse_result_of_done hsource rfl, History.start]
  cases history.pending <;> rfl

/-- A source that gives an operand with a fault is refused for it. -/
theorem parse_blamed (history : History) {fault : Number.Fault}
    (hs : ∀ rest, Solid (s ++ ([';'] ++ rest)) ∧ Unsigned (s ++ ([';'] ++ rest)))
    (h : ∀ c : Cursor, c.Faces (s ++ ([';'] ++ [' ', '\x7d'])) → ∃ a, operand (3 * c.left + 1) c history.start =
      (.done a (c.reach ([';'] ++ [' ', '\x7d'])), history.start.blamed fault)) :
    (parse history (String.ofList (assigningChars s))).result = .error (.number fault) := by
  have hc := at_body s
  have hvalueAt : (bodyStart s).At
      ((' ' :: ['p'] ++ [':']) ++ (' ' :: s ++ ([';'] ++ [' ', '\x7d']))) := by
    simpa [bodyChars] using hc
  obtain ⟨a, hoperand⟩ := h _ (hvalueAt.reach.faces_blank (by decide))
  obtain ⟨hsolid, hunsigned⟩ := hs [' ', '\x7d']
  obtain ⟨offset, lack, hvalue⟩ := valueOf_stops "p" hsolid hunsigned hvalueAt.reach rfl hoperand
  have hsource := source_stops ((assignment_eq_valueOf hc).trans hvalue)
  rw [History.start] at hsource
  rw [parse, String.toList_ofList, hsource]
  rfl

theorem parse_tooLong (history : History) {n : Nat} (h : 10 ^ Number.mostDigits ≤ n) :
    (parse history (assigning (.leaf (.number n)))).result =
      .error (.number (.tooLong (Nat.toDigits 10 n).length)) := by
  have htext : assigning (.leaf (.number n)) = String.ofList (assigningChars (Nat.toDigits 10 n)) := by
    rw [← String.toList_inj, toList_assigning, Expr.text, Leaf.text, Nat.toList_repr, String.toList_ofList]
  have hclose : Closes 10 true ([';'] ++ [' ', '\x7d']) := .mark (.inl rfl)
  rw [htext]
  refine parse_blamed history (fun rest => ⟨(fresh_digits n).solid, (fresh_digits n).unsigned⟩) fun c hf => ?_
  have hnumber : ∀ notes : Notes, number c notes = (.done .null (c.reach ([';'] ++ [' ', '\x7d'])),
      notes.blamed (.tooLong (Nat.toDigits 10 n).length)) := by
    intro notes
    rw [number_digits n hclose.borders.ends_number hf, numberValue_repr, if_neg (Nat.not_lt.mpr h)]
  exact ⟨_, operand_of_number _ (fresh_digits n) hclose.borders hf hf.reach (hnumber _)
    (by rw [hnumber, Notes.blamed_blamed])⟩

/-- The value read from an assignment is the text of the assigned expression in generated code, and no
other expression has that text there. -/
theorem parse_assigning (history : History) (e : Expr) (hfree : e.percentFree = true)
    (hread : e.readable = true) :
    (parse history (assigning e)).result = .ok (.component history.pending "T"
        [.assignment history.pending "p" (.text ("(" ++ e.text Name.reference ++ ")"))]) ∧
      ∀ e' : Expr, e'.text Name.reference = e.text Name.reference → e' = e := by
  have hresult := parse_result_of_reads history fun bound hbound => reads_text hfree hread hbound (.mark (.inl rfl))
  rw [← toList_assigning, String.ofList_toList] at hresult
  refine ⟨hresult, ?_⟩
  intro e' htext
  exact Expr.eq_of_text_eq htext

/-- An expression with operators of seven levels and parentheses. -/
def mixedLevels : Expr :=
  .conditional
    (.binary .and
      (.binary .le
        (.binary .rem
          (.binary .add (.leaf (.name ⟨⟨'a', ['.', 'b'], by decide, by decide⟩, by decide⟩))
            (.leaf (.number 12)))
          (.unary .minus (.leaf (.number 5))))
        (.leaf (.member ⟨'C', [], by decide, by decide⟩ ⟨'D', [], by decide, by decide⟩)))
      (.unary .not
        (.binary .isIn (.leaf (.quoted ⟨'"', ['x'], by decide, by decide, by decide⟩))
          (.leaf (.name ⟨⟨'i', ['n', 's'], by decide, by decide⟩, by decide⟩)))))
    (.binary .sub (.leaf (.number 1)) (.binary .sub (.leaf (.number 2)) (.leaf (.number 3))))
    (.leaf .null)

theorem parse_mixedLevels :
    assigning mixedLevels =
        "T \x7b p: (a.b + 12) % - 5 <= C.D && ! (\"x\" in ins) ? 1 - (2 - 3) : null; \x7d" ∧
      mixedLevels.percentFree = true ∧ mixedLevels.readable = true ∧
      (parse {} (assigning mixedLevels)).result = .ok (.component none "T" [.assignment none "p"
        (.text "(($\x7ba.b\x7d + 12) % - 5 <= C.D && ! (\"x\" in $\x7bins\x7d) ? 1 - (2 - 3) : null)")]) := by
  have htext : "(" ++ mixedLevels.text Name.reference ++ ")" =
      "(($\x7ba.b\x7d + 12) % - 5 <= C.D && ! (\"x\" in $\x7bins\x7d) ? 1 - (2 - 3) : null)" := by
    decide +kernel
  have hread : mixedLevels.readable = true := by decide +kernel
  refine ⟨by decide +kernel, by decide, hread, ?_⟩
  rw [← htext]
  exact (parse_assigning {} mixedLevels (by decide) hread).1

def nullPart : Name := ⟨⟨'n', ['u', 'l', 'l', '.', 'x'], by decide, by decide⟩, by decide⟩

/-- Neither a number with too many digits nor a name with a reserved first part is read. -/
theorem parse_unreadable :
    (parse {} (assigning (.leaf (.number (10 ^ Number.mostDigits))))).result =
        .error (.number (.tooLong (Number.mostDigits + 1))) ∧
      (parse {} (assigning (.leaf (.name nullPart)))).result.isOk = false := by
  refine ⟨?_, by decide +kernel⟩
  rw [parse_tooLong {} (Nat.le_refl _), Number.length_digits_pow]

end QmlScript.Grammar
