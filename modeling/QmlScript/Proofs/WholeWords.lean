import QmlScript.Proofs.Declaration.Value

/-!
# Words are read whole

A word that is given to a property is one reference, and with parentheses behind it the name of one function,
also if it starts like an operator. It is neither if its first part is reserved, or if an underscore makes it
look like a value of a choice.
-/

namespace QmlScript.Grammar

open QmlScript.Grammar.Parser List Text

variable {c : Cursor} {notes : Notes} {s rest : List Char} {bound : Nat} {x : Char} {w : List Char} {a : String}

theorem importLine?_of_last_line (hat : c.At s) (hline : '\n' ∉ s) :
    importLine? c = none ∨ importLine? c = some s.length := by
  unfold importLine? keywordAt
  rw [hat.ahead]
  cases hword : after? "import".toList s with
  | none => exact .inl rfl
  | some u =>
    obtain rfl := eq_append_of_after? hword
    have hall : ∀ y ∈ u, decide (y ≠ '\n') = true := fun y hy =>
      decide_eq_true fun heq => hline (mem_append_right _ (heq ▸ hy))
    dsimp only
    split_ifs
    · exact .inl rfl
    · exact .inl rfl
    · right
      have hdrop : ("import".toList ++ u).drop 6 = u := rfl
      rw [hdrop, takeWhile_eq_self_iff.mpr hall, length_append]
      rfl

/-- On the last line nothing is behind an import, so a name must stand at once. -/
theorem name_misses_on_last_line {lack : Lack} {first other : Char → Bool} (hat : c.At (x :: s))
    (hgap : isGap x = false) (hslash : x ≠ '/') (hline : '\n' ∉ x :: s) (hx : first x = false) :
    Misses (name lack first other) c notes := by
  have hskip : skipGap c = c := by rw [skipGap_eq hat.faces (by simpa using hgap), hat.reach_self]
  have hblock : blockComment? (x :: s) = none := by unfold blockComment?; split <;> simp_all
  have hcomment : lineComment? (x :: s) = none := by unfold lineComment?; split <;> simp_all
  have hfind : spanName first other (x :: s) = none := by simp [spanName, hx]
  suffices hplace : ∃ next : Cursor, skip c notes = (next, notes) ∧ spanName first other next.ahead = none by
    obtain ⟨next, hnext, hnone⟩ := hplace
    exact ⟨next.offset, lack, by simp only [name, token, hnext, hnone]⟩
  rw [skip, skipUpTo, hskip]
  simp only [hat.ahead, hblock, hcomment]
  rcases importLine?_of_last_line hat hline with himport | himport
  · exact ⟨c, by simp only [himport]; rfl, by rw [hat.ahead]; exact hfind⟩
  · have hall : c.At ((x :: s) ++ []) := by simpa using hat
    have hend : (c.advance (x :: s).length).At [] := hall.advance
    have hleft : c.left = s.length + 1 := hat.left
    refine ⟨_, ?_, by rw [hend.ahead]; rfl⟩
    have hgapless : skipGap (c.advance (x :: s).length) = c.advance (x :: s).length := by
      rw [skipGap_eq hend.faces (by simp), hend.reach_self]
    simp only [himport]
    rw [hleft]
    show skipUpTo (s.length + 1) (c.advance (x :: s).length) notes = _
    rw [skipUpTo, hgapless]
    simp only [hend.ahead, blockComment?, lineComment?, importLine?_of_solid solid_nil hend.ahead]
    rfl

/-- A call without arguments has the name before its parentheses. -/
theorem reads_call (hx : isNameStart x = true) (hw : ∀ y ∈ w, isPathChar y = true)
    (hs : Fresh (x :: w ++ ['(', ')'] ++ rest)) (h : Borders false rest) :
    Reads (operand (bound + 1)) (x :: w ++ ['(', ')']) (callText (String.ofList (x :: w)) []) rest := by
  have hpath := isPathChar_of_alpha (alpha_of_isNameStart hx)
  have hclass : isNumberChar x = false ∧ isQuote x = false := by
    simp only [isNameStart, Bool.or_eq_true, decide_eq_true_eq] at hx
    rcases hx with hx | rfl
    · exact ⟨(initial_of_isAlphanum.2.1 hx).number, (initial_of_isAlphanum.2.1 hx).quote⟩
    · decide
  have hname : Reads functionName (x :: w) (String.ofList (x :: w)) ((['('] ++ ([] ++ ([')'] ++ []))) ++ rest) :=
    fun c notes hf _ => (hf.meets (by simpa using hs.solid)).name_done hpath hw fun _ hy => Option.some.inj hy ▸ rfl
  have hopen : ReadsAt (mark "(") ['('] () (([] ++ ([')'] ++ [])) ++ rest) := readsAt_mark rfl (solid_cons rfl)
  have hclose : ReadsAt (mark ")") [')'] () ([] ++ rest) := readsAt_mark rfl (solid_cons rfl)
  have hnone : ReadsAt (optional (sepBy (inParentheses (conditional bound)) (mark ","))) [] none
      (([')'] ++ []) ++ rest) := by
    intro c notes hc
    have hmisses : Misses (conditional bound) c notes := by
      cases bound with
      | zero => exact ⟨_, _, rfl⟩
      | succ bound => exact conditional_misses (unary_misses (by decide) hc.faces)
    have hlist : Misses (sepBy (inParentheses (conditional bound)) (mark ",")) c notes := hmisses.bind.bind
    rw [optional_misses hlist]
    exact congrArg (fun c => (Reply.done none c, notes)) hc.reach_self.symm
  have hlater : ∀ p : Unit → Parser String, ReadsAt (many ((mark ".").bind p)) [] [] rest := by
    intro p c notes hc
    rw [many, manyUpTo_misses (h.mark_misses hc rfl (.inl (by decide))).bind]
    exact congrArg (fun c => (Reply.done [] c, notes)) hc.reach_self.symm
  have hcall : Reads (call (inParentheses (conditional bound))) (x :: w ++ (['('] ++ ([] ++ ([')'] ++ []))))
      (callText (String.ofList (x :: w)) []) rest :=
    hname.bind (hopen.bind (hnone.bind (hclose.bind ((hlater _).still fun _ _ => rfl))))
  intro c notes hf hclear
  exact operand_of_later hf hs ⟨hclass.1, hclass.2, rfl, rfl, rfl⟩ (choice_done (hcall c notes hf hclear))

/-- The source of a component that gives a value to a property. -/
def assigningText (value : String) : String := "T \x7b p: " ++ value ++ "; \x7d"

theorem assigningText_eq (value : String) : assigningText value = String.ofList (assigningChars value.toList) := by
  rw [← String.toList_inj, String.toList_ofList]
  simp [assigningText, assigningChars, bodyChars]

def Word.text (w : Word isNameStart isPathChar) : String := String.ofList w.chars

def Word.firstPart (w : Word isNameStart isPathChar) : String := String.ofList (w.chars.takeWhile (· != '.'))

/-- The tree of a component with a value and documentation that waited. -/
def assignedTree (pending : Option String) (value : String) : Tree :=
  .component pending "T" [.assignment pending "p" (.text value)]

theorem parse_assigned_unary (history : History)
    (h : ∀ bound, 3 * s.length + 2 ≤ bound → Reads (unary bound) s a [';', ' ', '\x7d']) :
    (parse history (assigningText (String.ofList s))).result =
      .ok (assignedTree history.pending (parenthesised a)) := by
  rw [assigningText_eq, String.toList_ofList]
  refine parse_result_of_reads history fun bound hbound => ?_
  obtain ⟨bound, rfl⟩ : ∃ b, bound = b + 1 := ⟨bound - 1, by omega⟩
  intro c notes hf hclear
  exact conditional_of_unary (by decide) hf.reach.faces (h bound (by omega) c notes hf hclear)

/-- An operand that is given to a property is its value. -/
theorem parse_assigned_operand (history : History) (hs : Fresh (s ++ [';', ' ', '\x7d']))
    (h : ∀ bound, Reads (operand (bound + 1)) s a [';', ' ', '\x7d']) :
    (parse history (assigningText (String.ofList s))).result =
      .ok (assignedTree history.pending (parenthesised a)) := by
  refine parse_assigned_unary history fun bound hbound => ?_
  obtain ⟨bound, rfl⟩ : ∃ b, bound = b + 2 := ⟨bound - 2, by omega⟩
  exact reads_unsigned hs.solid hs.unsigned (h bound)

theorem choiceName_misses_behind_dot {v : List Char} (hpath : ∀ y ∈ v, isPathChar y = true)
    (hv : v.head?.any isChoiceStart = false) (hat : c.At (v ++ [';', ' ', '\x7d'])) : Misses choiceName c notes := by
  have hline : '\n' ∉ v ++ [';', ' ', '\x7d'] := by
    intro hmem
    rcases mem_append.mp hmem with hmem | hmem
    · exact absurd (hpath _ hmem) (by decide)
    · exact absurd hmem (by decide)
  cases v with
  | nil => exact name_misses_on_last_line hat (by decide) (by decide) hline (by decide)
  | cons y v =>
    have hy : isPathChar y = true := hpath y (by simp)
    have hgap : isGap y = false := Bool.eq_false_iff.mpr fun hgap => by simp [not_path_of_isGap hgap] at hy
    have hslash : y ≠ '/' := fun heq => absurd hy (by rw [heq]; decide)
    exact name_misses_on_last_line hat hgap hslash hline (by simpa using hv)

/-- A word that does not look like a value of a choice is none. -/
theorem Word.member_misses (w : Word isNameStart isPathChar) (hmember : isMember w.chars = false)
    (hs : Fresh (w.chars ++ [';', ' ', '\x7d'])) (hf : c.Faces (w.chars ++ [';', ' ', '\x7d'])) :
    Misses member c notes := by
  have hw : ∀ y ∈ w.tail, isPathChar y = true := all_eq_true.mp w.tail_ok
  refine (member_word notes hw (stops_mark (by decide)) (fun u v huv hv _ hat => ?_) (hf.meets hs.solid)).1 hmember
  exact choiceName_misses_behind_dot (fun y hy => hw y (huv ▸ mem_append_right _ (mem_cons_of_mem _ hy))) hv hat

/-- A word whose first part is not reserved, and which does not start like the operator `typeof`, is read as
one reference, unless it looks like a value of a choice, and as the name of one function if it is called. -/
theorem parse_word (history : History) (w : Word isNameStart isPathChar) (hfirst : w.firstPart ∉ reservedWords)
    (htypeof : startsWith "typeof".toList w.chars = false) :
    (isMember w.chars = false → (parse history (assigningText w.text)).result =
      .ok (assignedTree history.pending (parenthesised (referenceText w.text)))) ∧
    (parse history (assigningText (w.text ++ "()"))).result =
      .ok (assignedTree history.pending (parenthesised (callText w.text []))) := by
  have hw : ∀ y ∈ w.tail, isPathChar y = true := all_eq_true.mp w.tail_ok
  have hborders : Borders false [';', ' ', '\x7d'] := borders_of_mem (.inl rfl)
  have hfresh : ∀ {rest}, Apart rest → Fresh (w.chars ++ rest) := fresh_word w.head_ok hw hfirst htypeof
  constructor
  · intro hmember
    have hstops : Stops [';', ' ', '\x7d'] := stops_mark (by decide)
    have hword : Fresh (w.chars ++ [';', ' ', '\x7d']) := hfresh hstops.apart
    exact parse_assigned_operand history hword fun _ =>
      reads_reference w.head_ok hw hword hborders fun _ _ hf => w.member_misses hmember hword hf
  · have hcall : Fresh (w.chars ++ ['(', ')'] ++ [';', ' ', '\x7d']) := by
      rw [append_assoc]
      exact hfresh (apart_cons (by decide))
    have htext : w.text ++ "()" = String.ofList (w.chars ++ ['(', ')']) := by
      rw [String.ofList_append]
      rfl
    rw [htext]
    exact parse_assigned_operand history hcall fun _ => reads_call w.head_ok hw hcall hborders

/-- A word that goes on behind the letters `typeof` is the operator with a reference. -/
theorem parse_typeof (history : History) (w : Word isNameStart isPathChar) (hfirst : w.firstPart ∉ reservedWords)
    (htypeof : startsWith "typeof".toList w.chars = false) (hmember : isMember w.chars = false) :
    (parse history (assigningText ("typeof" ++ w.text))).result =
      .ok (assignedTree history.pending (parenthesised ("typeof " ++ referenceText w.text))) := by
  have hw : ∀ y ∈ w.tail, isPathChar y = true := all_eq_true.mp w.tail_ok
  have hstops : Stops [';', ' ', '\x7d'] := stops_mark (by decide)
  have hword : Fresh (w.chars ++ [';', ' ', '\x7d']) := fresh_word w.head_ok hw hfirst htypeof hstops.apart
  have hborders : Borders false [';', ' ', '\x7d'] := borders_of_mem (.inl rfl)
  have htext : "typeof" ++ w.text = String.ofList ("typeof".toList ++ w.chars) := by
    rw [String.ofList_append, String.ofList_toList, Word.text]
  rw [htext]
  refine parse_assigned_unary history fun bound hbound => ?_
  rw [length_append, show "typeof".toList.length = 6 from rfl] at hbound
  obtain ⟨bound, rfl⟩ : ∃ b, bound = b + 3 := ⟨bound - 3, by omega⟩
  intro c notes hf _
  rw [append_assoc] at hf
  have hoperator : unaryOperator c notes = (.done "typeof" (c.reach (w.chars ++ [';', ' ', '\x7d'])), notes) :=
    oneOf_done hf (solid_cons rfl) (by simp [startsWith, after?])
  have hreference : unary (bound + 2) (c.reach (w.chars ++ [';', ' ', '\x7d'])) notes =
      (.done (referenceText w.text) (c.reach [';', ' ', '\x7d']), notes) := by
    have hfaces := hf.reach.faces
    refine (levels_zero_unsigned hword.solid hword.unsigned hfaces).trans ?_
    rw [operand_reference w.head_ok hw hword hborders hfaces (w.member_misses hmember hword hfaces), hf.reach_reach]
    rfl
  rw [unary]
  exact bind_done (tentative_done ((bind_done hoperator).trans (bind_done hreference)))

def operatorLike : Word isNameStart isPathChar := ⟨'i', "nstanceof.in.null".toList, by decide, by decide⟩

theorem parse_operatorLike :
    (parse {} (assigningText "instanceof.in.null")).result =
      .ok (assignedTree none (parenthesised (referenceText "instanceof.in.null"))) := by
  have htext : operatorLike.text = "instanceof.in.null" := by decide
  rw [← htext]
  exact (parse_word {} operatorLike (by decide) (by decide)).1 (by decide)

def memberLike : Word isNameStart isPathChar := ⟨'_', "a.B".toList, by decide, by decide⟩

def nullLike : Word isNameStart isPathChar := ⟨'n', "ull.x".toList, by decide, by decide⟩

def assignedText? : Except ParseError Tree → Option String
  | .ok (.component _ _ [.assignment _ _ (.text value)]) => some value
  | _ => none

/-- A word that looks like a value of a choice is not a reference, and one whose first part is reserved is not
read at all. -/
theorem parse_word_not_reference :
    assignedText? (parse {} (assigningText memberLike.text)).result = some "(_a.B)" ∧
      (parse {} (assigningText nullLike.text)).result.isOk = false ∧
      (parse {} (assigningText (nullLike.text ++ "()"))).result.isOk = false := by
  decide +kernel

end QmlScript.Grammar
