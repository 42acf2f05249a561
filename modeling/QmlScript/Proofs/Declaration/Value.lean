import QmlScript.Proofs.Declaration.Words

/-!
# Values of properties

The plain values of properties are whole numbers, names and string literals. Before a semicolon or a
comma each of them is read as an expression, and nothing is left over.
-/

namespace QmlScript.Grammar

open QmlScript.Grammar.Parser List Text

variable {c c' : Cursor} {notes notes' : Notes} {s t rest : List Char} {bound : Nat} {x : Char}
variable {w : List Char} {a : String}

def Stops (rest : List Char) : Prop :=
  ∃ gap x s, rest = gap ++ x :: s ∧ (∀ y ∈ gap, isGap y = true) ∧ isMark x = true

theorem stops_mark (h : isMark x = true) : Stops (x :: s) := ⟨[], x, s, rfl, by simp, h⟩

theorem Stops.behind_blank (h : Stops s) : Stops (' ' :: s) := by
  obtain ⟨gap, x, s, rfl, hgap, hx⟩ := h
  exact ⟨' ' :: gap, x, s, rfl, by simpa using ⟨by decide, hgap⟩, hx⟩

theorem not_path_of_isGap (h : isGap x = true) : isPathChar x = false := by
  simp only [isGap, Bool.or_eq_true, decide_eq_true_eq] at h
  rcases h with ((rfl | rfl) | rfl) | rfl <;> decide

theorem not_path_of_isMark (h : isMark x = true) : isPathChar x = false := by
  simp only [isMark, Bool.or_eq_true, decide_eq_true_eq] at h
  rcases h with (((((rfl | rfl) | rfl) | rfl) | rfl) | rfl) | rfl <;> decide

theorem Stops.apart (h : Stops rest) : Apart rest := by
  obtain ⟨gap, x, s, rfl, hgap, hx⟩ := h
  intro y hy
  cases gap with
  | nil =>
    obtain rfl : x = y := by simpa using hy
    exact not_path_of_isMark hx
  | cons z gap =>
    obtain rfl : z = y := by simpa using hy
    exact not_path_of_isGap (hgap z (by simp))

theorem Stops.mark_misses {word : String} {y : Char} (h : Stops rest) (hc : c.At rest) (hword : word.toList = y :: w)
    (hy : isMark y = false) : Misses (mark word) c notes := by
  obtain ⟨gap, x, s, rfl, hgap, hx⟩ := h
  refine mark_misses_of_ne hword ⟨gap, hgap, hc⟩ (solid_mark hx) ?_
  rintro rfl
  exact absurd hx (by simp [hy])

theorem Stops.name_misses {lack : Lack} {first other : Char → Bool} (h : Stops rest) (hc : c.At rest)
    (hfirst : ∀ x, first x = true → isPathChar x = true) : Misses (name lack first other) c notes := by
  obtain ⟨gap, x, s, rfl, hgap, hx⟩ := h
  refine Grammar.name_misses ⟨gap, hgap, hc⟩ (solid_mark hx) ?_
  cases hfirst' : first x with
  | false => rfl
  | true => exact absurd (hfirst x hfirst') (by simp [not_path_of_isMark hx])

def enders : List Char := [';', ',', '.', '_', ':', '\x7b']

theorem solid_ender (hx : x ∈ enders) : Solid (x :: s) := solid_cons (eq_false_of_all (by decide) x hx)

theorem startsWith_ender (hx : x ∈ enders) :
    ∀ operators ∈ binaryOperators, ∀ w ∈ operators, startsWith w.toList (x :: s) = false := by
  have hheads : ∀ operators ∈ binaryOperators, ∀ w ∈ operators,
      w.toList ≠ [] ∧ enders.all (fun x => w.toList.head? != some x) = true := by
    decide
  exact fun operators hoperators w hw => startsWith_of_head (hheads operators hoperators w hw) hx

theorem binaryLevels_done {levels : List (List String)} {p : Parser String}
    (hlevels : ∀ operators ∈ levels, ∀ w ∈ operators, startsWith w.toList (x :: s) = false) (hs : Solid (x :: s))
    (hc : c'.Faces (x :: s)) (h : p c notes = (.done a c', notes')) :
    binaryLevels levels p c notes = (.done a c', notes') := by
  induction levels generalizing p with
  | nil => exact h
  | cons operators levels ih =>
    have hmisses : Misses (operation (oneOf operators) p) c' notes' :=
      ((hc.meets hs).oneOf_misses (hlevels operators (by simp))).bind
    have hlevel : binaryLevel operators p c notes = (.done a c', notes') := by
      calc binaryLevel operators p c notes = _ := bind_done h
        _ = _ := bind_done (tentative_misses hmisses)
    exact ih (fun other hother => hlevels other (by simp [hother])) hlevel

theorem conditional_of_unary (hx : x ∈ enders) (hc : c'.Faces (x :: s))
    (h : unary bound c notes = (.done a c', notes')) :
    conditional (bound + 1) c notes = (.done a c', notes') := by
  have hquestion : '?' ≠ x := by
    rintro rfl
    exact absurd hx (by decide)
  have hmark : Misses (mark "?") c' notes' := mark_misses_of_ne rfl hc (solid_ender hx) hquestion
  rw [conditional]
  refine (bind_done (binaryLevels_done (startsWith_ender hx) (solid_ender hx) hc h)).trans ?_
  exact bind_done (tentative_misses hmark.bind)

theorem conditional_misses (h : Misses (unary bound) c notes) : Misses (conditional (bound + 1)) c notes := by
  rw [conditional]
  exact (binaryLevels_misses h).bind

theorem checkedExpression_done (h : conditional (3 * c.left + 3) c notes = (.done a c', notes'))
    (hfault : notes'.fault = none) :
    checkedExpression c notes = (.done (parenthesised a) c', notes') := checked_done (telling_done (bind_done h)) hfault

theorem checkedExpression_misses (h : Misses (conditional (3 * c.left + 3)) c notes)
    (hfault : notes.fault = none) : Misses checkedExpression c notes := by
  obtain ⟨offset, lack, hmiss⟩ := h
  refine ⟨offset, .expression, ?_⟩
  have hinner : inParentheses (conditional (3 * c.left + 3)) c notes = (.miss offset lack, notes) := by
    rw [inParentheses, Parser.bind, hmiss]
  simp only [checkedExpression, checked, expression, telling, hinner, hfault, Option.isSome_none]
  rfl

/-- Whether a word starts like a value of a choice behind its type. -/
def isMember : List Char → Bool
  | [] => false
  | x :: s =>
    isChoiceStart x &&
      match s.dropWhile Char.isAlphanum with
      | '.' :: y :: _ => isChoiceStart y
      | _ => false

theorem isFree_of_append (h : isFree (s ++ '.' :: t) = true) : isFree t = true := by
  rw [isFree, splitOn_append, all_append, Bool.and_eq_true] at h
  exact h.2

theorem eq_dot_or_underscore (hpath : isPathChar x = true) (h : x.isAlphanum = false) : x = '.' ∨ x = '_' := by
  simp only [isPathChar, isNameChar, h, Bool.false_or, Bool.or_eq_true, decide_eq_true_eq] at hpath
  exact hpath.symm

theorem alpha_of_isChoiceStart (h : isChoiceStart x = true) : isPathChar x = true :=
  isPathChar_of_alpha (Spelling.first_ok Char.isAlphanum x h)

theorem exists_cut (p : Char → Bool) (s : List Char) :
    ∃ u v, s = u ++ v ∧ (∀ y ∈ u, p y = true) ∧ (∀ y ∈ v.head?, p y = false) ∧ s.dropWhile p = v := by
  induction s with
  | nil => exact ⟨[], [], rfl, by simp, by simp, rfl⟩
  | cons x s ih =>
    obtain ⟨u, v, rfl, hu, hv, hdrop⟩ := ih
    cases hx : p x with
    | false => exact ⟨[], x :: (u ++ v), rfl, by simp, by simpa using hx, by simp [hx]⟩
    | true => exact ⟨x :: u, v, rfl, by simpa using ⟨hx, hu⟩, hv, by simp [hx, hdrop]⟩

theorem Apart.append (h : Apart rest) {p : Char → Bool} (hp : ∀ y, p y = true → isPathChar y = true)
    (ht : ∀ y ∈ t.head?, p y = false) : ∀ y ∈ (t ++ rest).head?, p y = false := by
  cases t with
  | cons z t => exact ht
  | nil =>
    intro y hy
    cases hpy : p y with
    | false => rfl
    | true => exact absurd (hp y hpy) (by simp [h y hy])

theorem memberValue_misses (hw : ∀ y ∈ w, isPathChar y = true) (hstops : Stops rest) (hfree : isFree w = true)
    (hx : w.head?.any isChoiceStart = false) (hat : c.At (w ++ rest)) : Misses choiceName c notes := by
  cases w with
  | nil => exact hstops.name_misses hat fun _ => alpha_of_isChoiceStart
  | cons x w => exact name_misses hat.faces (solid_of_isFree (by simp) hw hfree hstops.apart) (by simpa using hx)

theorem memberValue_done (notes : Notes) (hw : ∀ y ∈ w, isPathChar y = true) (hstops : Stops rest)
    (hx : w.head?.any isChoiceStart = true) (hat : c.At (w ++ rest)) :
    ∃ a u v, w = u ++ v ∧ (∀ y ∈ v.head?, y = '.' ∨ y = '_') ∧
      choiceName c notes = (.done a (c.reach (v ++ rest)), notes) := by
  cases w with
  | nil => cases hx
  | cons x w =>
    have hx : isChoiceStart x = true := hx
    have hs : Fresh (x :: w ++ rest) := fresh_of_class hx (by decide)
    obtain ⟨u, v, rfl, hu, hv, -⟩ := exists_cut Char.isAlphanum w
    have hf : c.Faces (x :: u ++ (v ++ rest)) := by simpa using hat.faces
    refine ⟨_, x :: u, v, rfl, fun y hy => ?_, (hf.meets (by simpa using hs.solid)).name_done hx hu
      (hstops.apart.append (fun _ => isPathChar_of_isAlphanum) hv)⟩
    exact eq_dot_or_underscore (hw y (by simp [mem_of_mem_head? hy])) (hv y hy)

/-- A word of which a member is read, before a dot or an underscore. -/
theorem member_word (notes : Notes) (hw : ∀ y ∈ w, isPathChar y = true) (hstops : Stops rest)
    (hvalue : ∀ u v, w = u ++ '.' :: v → v.head?.any isChoiceStart = false → ∀ c : Cursor, c.At (v ++ rest) →
      Misses choiceName c notes) (h : c.Meets (x :: w ++ rest)) :
    (isMember (x :: w) = false → Misses member c notes) ∧
      (isMember (x :: w) = true → ∃ a u v, w = u ++ v ∧ (∀ y ∈ v.head?, y = '.' ∨ y = '_') ∧
        member c notes = (.done a (c.reach (v ++ rest)), notes)) := by
  have halnum : ∀ y : Char, y.isAlphanum = true → isPathChar y = true := fun _ => isPathChar_of_isAlphanum
  cases hx : isChoiceStart x with
  | false =>
    refine ⟨fun _ => (h.name_misses (s := w ++ rest) hx).bind, fun hmember => ?_⟩
    simp [isMember, hx] at hmember
  | true =>
    -- the type of the member is the word up to its first dot or underscore
    obtain ⟨u, v, rfl, hu, hv, hdrop⟩ := exists_cut Char.isAlphanum w
    have hf : c.Faces (x :: u ++ (v ++ rest)) := by simpa using h.faces
    have htype : choiceName c notes = (.done (String.ofList (x :: u)) (c.reach (v ++ rest)), notes) := by
      refine Cursor.Meets.name_done ⟨hf, ?_⟩ hx hu (hstops.apart.append halnum hv)
      simpa using h.skip
    simp only [isMember, hx, hdrop, Bool.true_and]
    cases v with
    | nil =>
      refine ⟨fun _ => ?_, by simp⟩
      exact misses_bind_of_done htype (hstops.mark_misses hf.reach rfl (by decide)).bind
    | cons z v =>
      have hz : z = '.' ∨ z = '_' := eq_dot_or_underscore (hw z (by simp)) (hv z rfl)
      have hat : (c.reach (z :: v ++ rest)).At (z :: v ++ rest) := hf.reach
      rcases hz with rfl | rfl
      · have hword : c.Faces ((x :: u) ++ (['.'] ++ (v ++ rest))) := by simpa using hf
        have hlater : c.Faces ((x :: u ++ ['.']) ++ (v ++ rest)) := by simpa using hf
        have hdot : mark "." (c.reach ('.' :: v ++ rest)) notes = (.done () (c.reach (v ++ rest)), notes) := by
          rw [← hword.reach_reach]
          exact mark_done rfl hword.reach.faces (solid_cons rfl)
        refine ⟨fun hmember => ?_, fun hmember => ?_⟩
        · have hvalue := hvalue u v rfl (by cases v <;> simp_all) _ hlater.reach
          exact misses_bind_of_done htype (misses_bind_of_done hdot hvalue.bind)
        · obtain ⟨a, u', v', rfl, hhead, hvalue⟩ := memberValue_done notes (fun y hy => hw y (by simp [hy])) hstops
            (by cases v <;> simp_all) hlater.reach
          have hcut : c.Faces ((x :: u ++ ['.']) ++ (u' ++ (v' ++ rest))) := by simpa using hlater
          have hreach : (c.reach (u' ++ v' ++ rest)).reach (v' ++ rest) = c.reach (v' ++ rest) := by
            rw [append_assoc]
            exact hcut.reach_reach
          rw [hreach] at hvalue
          refine ⟨String.ofList (x :: u) ++ "." ++ a, u ++ '.' :: u', v', by simp, hhead, ?_⟩
          calc member c notes = _ := bind_done htype
            _ = _ := bind_done hdot
            _ = _ := bind_done hvalue
      · refine ⟨fun _ => ?_, by simp⟩
        have hdot : Misses (mark ".") (c.reach ('_' :: v ++ rest)) notes :=
          mark_misses_of_ne rfl hat.faces (solid_cons rfl) (by decide)
        exact misses_bind_of_done htype hdot.bind

/-- A name as a value: it starts like no `typeof` and no value of a choice. -/
structure ValueName extends Ident isNameStart isPathChar where
  not_typeof : startsWith "typeof".toList (head :: tail) = false
  not_member : isMember (head :: tail) = false
  deriving DecidableEq

@[ext]
structure Literal where
  quote : Char
  body : List Char
  quote_ok : isQuote quote = true
  body_ok : isBody quote body = true

instance : DecidableEq Literal := fun _ _ => decidable_of_iff' _ Literal.ext_iff

def Literal.chars (q : Literal) : List Char := q.quote :: (q.body ++ [q.quote])

inductive Value where
  | number (n : Int) (h : n.natAbs < 10 ^ Number.mostDigits)
  | name (w : ValueName)
  | quoted (q : Literal)
  deriving DecidableEq

def Value.chars : Value → List Char
  | .number n _ => n.repr.toList
  | .name w => w.chars
  | .quoted q => q.chars

def Value.code : Value → String
  | .number (.ofNat n) _ => n.repr
  | .number (.negSucc n) _ => "- " ++ (n + 1).repr
  | .name w => referenceText w.text
  | .quoted q => String.ofList (literalText q.chars)

theorem ValueName.fresh (w : ValueName) (h : Apart rest) : Fresh (w.chars ++ rest) where
  solid := w.solid h
  unreserved := fun word hword _ ht =>
    have hkeyword : ∀ word ∈ reservedWords, word ∈ keywords := by decide
    runsOn_of_isFree w.isPathChar_of_mem w.free h (hkeyword word hword) ht
  unsigned := unsigned_of_path (w.isPathChar_of_mem _ (by simp [Word.chars])) w.not_typeof h

theorem Literal.fresh (q : Literal) : Fresh (q.chars ++ rest) := fresh_of_class q.quote_ok (by decide)

theorem borders_of_mem {number : Bool} (hx : x = ';' ∨ x = ',') : Borders number (x :: s) := by
  have hmark : isMark x = true := by rcases hx with rfl | rfl <;> decide
  refine ⟨?_, [], x, s, rfl, by simp, solid_mark hmark, ?_, fun _ => ?_⟩
  · rcases hx with rfl | rfl <;> simp
  · rcases hx with rfl | rfl <;> decide
  · rcases hx with rfl | rfl <;> decide

theorem reads_digits (bound : Nat) {n : Nat} (hn : n < 10 ^ Number.mostDigits) (h : Borders true rest) :
    Reads (unary (bound + 2)) n.repr.toList n.repr rest := by
  have hread : (Leaf.number n).readable = true := by simpa [Leaf.readable] using hn
  have hfresh : Fresh (n.repr.toList ++ rest) := by
    rw [Nat.toList_repr]
    exact fresh_digits n
  exact reads_unsigned hfresh.solid hfresh.unsigned (reads_number hread h)

theorem reads_negative {n : Nat} (hn : n < 10 ^ Number.mostDigits) (h : Borders true rest) :
    Reads (unary (bound + 3)) ('-' :: n.repr.toList) ("- " ++ n.repr) rest := by
  have hsign : Reads unaryOperator "-".toList "-" (n.repr.toList ++ rest) := fun _ _ hf _ =>
    oneOf_done hf (solid_cons rfl) (by simp [startsWith, after?])
  have hdigits : Reads (operation unaryOperator (unary (bound + 2))) ('-' :: n.repr.toList) ("- " ++ n.repr) rest :=
    .bind_clear (by decide) hsign ((reads_digits bound hn h).still fun _ _ => rfl)
  intro c notes hf hclear
  rw [unary]
  exact bind_done (tentative_done (hdigits c notes hf hclear))

theorem reads_valueName (w : ValueName) (hstops : Stops rest) (h : Borders false rest) :
    Reads (unary (bound + 2)) w.chars (referenceText w.text) rest := by
  have hfresh := w.fresh hstops.apart
  have hw : ∀ y ∈ w.tail, isPathChar y = true := all_eq_true.mp w.tail_ok
  have hmember : ∀ c notes, c.Faces (w.chars ++ rest) → Misses member c notes := by
    intro c notes hf
    refine (member_word notes hw hstops
      (fun u v huv hx c hat => memberValue_misses (fun y hy => hw y (by simp [huv, hy])) hstops
        (isFree_of_append (s := w.head :: u) ?_) hx hat) (hf.meets hfresh.solid)).1 w.not_member
    rw [cons_append, ← huv]
    exact w.free
  exact reads_unsigned hfresh.solid hfresh.unsigned (reads_reference w.head_ok hw hfresh h hmember)

theorem reads_value (bound : Nat) (v : Value) (hx : x = ';' ∨ x = ',') :
    Reads (unary (bound + 3)) v.chars v.code (x :: s) := by
  have hmark : isMark x = true := by rcases hx with rfl | rfl <;> decide
  cases v with
  | number n h =>
    cases n with
    | ofNat n => exact reads_digits _ h (borders_of_mem hx)
    | negSucc n =>
      have hchars : (Value.number (.negSucc n) h).chars = '-' :: (n + 1).repr.toList := by
        simp [Value.chars, Int.repr]
      rw [hchars]
      exact reads_negative h (borders_of_mem hx)
  | name w => exact reads_valueName w (stops_mark hmark) (borders_of_mem hx)
  | quoted q => exact reads_unsigned q.fresh.solid q.fresh.unsigned (reads_literal q.quote_ok q.body_ok)

/-- What unary operators read is an expression, before what continues none. -/
theorem takes_checkedExpression (hx : x ∈ enders) (h : ∀ bound, Reads (unary (bound + 3)) s a (x :: t)) :
    Takes checkedExpression (' ' :: s) (· = parenthesised a) (x :: t) := by
  intro c notes hf hfault
  have hpos := hf.length_le
  simp only [cons_append, length_cons] at hpos
  obtain ⟨b, hb⟩ : ∃ b, 3 * c.left + 3 = b + 3 + 1 := ⟨3 * c.left - 1, by omega⟩
  have hf' : c.Faces (s ++ x :: t) := hf.behind_blank
  have hunary := h b c notes hf' (hf.clear (by decide))
  have hconditional := conditional_of_unary hx hf'.reach.faces hunary
  rw [← hb] at hconditional
  exact ⟨_, _, notes, checkedExpression_done hconditional hfault, rfl, hf'.reach.faces, hfault⟩

theorem Value.takes (v : Value) (hx : x = ';' ∨ x = ',') :
    Takes checkedExpression (' ' :: v.chars) (· = parenthesised v.code) (x :: s) := by
  have hender : x ∈ enders := by rcases hx with rfl | rfl <;> decide
  exact takes_checkedExpression hender fun bound => reads_value bound v hx

end QmlScript.Grammar
