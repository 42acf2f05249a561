import QmlScript.Proofs.Expression.Levels

/-!
# Generated texts are unambiguous

The generated text of an expression determines the tree. Read from the left, it determines its first operand,
then the operators of a level with their operands, and so the spine of each level, from which the expression
is built up again.
-/

namespace QmlScript.Grammar

open List Grammar.Expr

variable {s t rest rest' : List Char} {level : Nat} {x : Char} {a : Leaf} {n : Nat}

def endsWord (x : Char) : Bool := x = ' ' || x = ';' || x = ')'

theorem append_inj_of_word (hs : ∀ x ∈ s, endsWord x = false) (ht : ∀ x ∈ t, endsWord x = false)
    (hrest : ∀ x ∈ rest.head?, endsWord x = true) (hrest' : ∀ x ∈ rest'.head?, endsWord x = true)
    (h : s ++ rest = t ++ rest') : s = t ∧ rest = rest' := by
  have hword : ∀ {s rest : List Char}, (∀ x ∈ s, endsWord x = false) →
      (∀ x ∈ rest.head?, endsWord x = true) → (s ++ rest).takeWhile (fun x => !endsWord x) = s := by
    intro s rest hs hrest
    exact takeWhile_append_of_head (fun x hx => by simp [hs x hx]) (fun x hx => by simp [hrest x hx])
  have hst : s = t := by rw [← hword hs hrest, h, hword ht hrest']
  rw [hst] at h
  exact ⟨hst, append_cancel_left h⟩

def kindOf (x : Char) : Nat :=
  if x.isDigit then 0 else if isQuote x then 1 else if x.isUpper then 2 else x.toNat

def Leaf.kind : Leaf → Nat
  | .number _ => 0
  | .truth b => if b then 't'.toNat else 'f'.toNat
  | .null => 'n'.toNat
  | .quoted _ => 1
  | .member _ _ => 2
  | .name _ => '$'.toNat

theorem Initial.not_digit {quote path small capital : Bool}
    (h : Initial x false quote path small capital) : x.isDigit = false := by
  have hnumber := h.number
  simp only [isNumberChar, Bool.or_eq_false_iff] at hnumber
  exact hnumber.1.1.1

theorem Leaf.exists_head (a : Leaf) : ∃ x s, (a.text Name.reference).toList = x :: s ∧ kindOf x = a.kind := by
  cases a with
  | number n =>
    obtain ⟨x, s, hs, hx⟩ := digits_eq_cons n
    refine ⟨x, s, by rw [Leaf.text, Nat.toList_repr, hs], ?_⟩
    simp [kindOf, hx, Leaf.kind]
  | truth b => cases b <;> exact ⟨_, _, rfl, by decide⟩
  | null => exact ⟨_, _, rfl, by decide⟩
  | quoted q =>
    have hdigit := (initial_of_isQuote q.quote_ok).not_digit
    refine ⟨q.quote, q.body ++ [q.quote], by simp [Leaf.text, Quoted.chars], ?_⟩
    simp [kindOf, hdigit, q.quote_ok, Leaf.kind]
  | member type value =>
    have hx := initial_of_isAlphanum.2.2 type.head_ok
    refine ⟨type.head, type.tail ++ '.' :: value.chars, by simp [Leaf.text, Word.chars], ?_⟩
    simp [kindOf, hx.not_digit, hx.quote, type.head_ok, Leaf.kind]
  | name w =>
    refine ⟨'$', '\x7b' :: w.plain.toList ++ ['\x7d'], ?_, by rw [Leaf.kind]; decide⟩
    simp [Leaf.text, Name.reference, referenceText]

theorem endsWord_of_isPathChar (h : isPathChar x = true) : endsWord x = false := by
  have hne : ∀ y : Char, isPathChar y = false → x ≠ y := by
    rintro y hy rfl
    exact absurd h (by simp [hy])
  simp [endsWord, hne ' ' (by decide), hne ';' (by decide), hne ')' (by decide)]

theorem Word.chars_inj {first other : Char → Bool} {v w : Word first other} (h : v.chars = w.chars) : v = w := by
  obtain ⟨head, tail, _, _⟩ := v
  obtain ⟨head', tail', _, _⟩ := w
  obtain ⟨rfl, rfl⟩ := List.cons.inj h
  rfl

theorem Name.chars_inj {v w : Name} (h : v.chars = w.chars) : v = w := by
  have hword := Word.chars_inj h
  cases v
  cases w
  simpa using hword

theorem Quoted.chars_inj {p q : Quoted} (h : p.chars = q.chars) : p = q := by
  obtain ⟨hquote, hbody⟩ := List.cons.inj h
  rw [hquote] at hbody
  have hbody := append_cancel_right hbody
  cases p
  cases q
  simp_all

theorem Leaf.endsWord_of_mem (hkind : a.kind ≠ 1) :
    ∀ x ∈ (a.text Name.reference).toList, endsWord x = false := by
  cases a with
  | number n =>
    rw [Leaf.text, Nat.toList_repr]
    intro x hx
    exact endsWord_of_isPathChar (initial_of_isAlphanum.1 (Number.isDigit_of_mem_digits n x hx)).path
  | truth b => cases b <;> exact eq_false_of_all (by decide)
  | null => exact eq_false_of_all (by decide)
  | quoted q => exact absurd rfl hkind
  | member type value =>
    have hpath : ∀ w : Word Char.isUpper Char.isAlphanum, ∀ x ∈ w.chars, isPathChar x = true := by
      intro w x hx
      rcases mem_cons.mp hx with rfl | hx
      · exact (initial_of_isAlphanum.2.2 w.head_ok).path
      · exact isPathChar_of_isAlphanum (all_eq_true.mp w.tail_ok x hx)
    intro x hx
    simp only [Leaf.text, String.toList_append, String.toList_ofList, mem_append] at hx
    rcases hx with (hx | hx) | hx
    · exact endsWord_of_isPathChar (hpath type x hx)
    · rw [mem_singleton.mp hx]
      decide
    · exact endsWord_of_isPathChar (hpath value x hx)
  | name w =>
    intro x hx
    simp only [Leaf.text, Name.reference, Name.plain, referenceText, String.toList_append,
      String.toList_ofList, mem_append] at hx
    rcases hx with (hx | hx) | hx
    · exact eq_false_of_all (by decide) x hx
    · rcases mem_cons.mp hx with rfl | hx
      · exact endsWord_of_isPathChar (initial_of_isAlphanum.2.1 w.head_ok).path
      · exact endsWord_of_isPathChar (all_eq_true.mp w.tail_ok x hx)
    · rw [mem_singleton.mp hx]
      decide

theorem Leaf.text_inj {a' : Leaf} (hkind : a.kind = a'.kind) (hword : a.kind ≠ 1)
    (h : (a.text Name.reference).toList = (a'.text Name.reference).toList) : a = a' := by
  rcases a with n | (_ | _) | _ | q | ⟨type, value⟩ | w <;>
    rcases a' with n' | (_ | _) | _ | q' | ⟨type', value'⟩ | w' <;>
    try (simp [Leaf.kind] at hkind; done)
  · simp only [Leaf.text, Nat.toList_repr] at h
    rw [← Nat.ofDigitChars_ten_toDigits (n := n), h, Nat.ofDigitChars_ten_toDigits]
  · rfl
  · rfl
  · rfl
  · exact absurd rfl hword
  · simp only [Leaf.text, String.toList_append, String.toList_ofList, append_assoc] at h
    have hdot : ∀ w : Word Char.isUpper Char.isAlphanum, ∀ s : List Char,
        (w.chars ++ (".".toList ++ s)).takeWhile (· != '.') = w.chars := by
      intro w s
      refine takeWhile_append_of_head (fun x hx => ?_) (by simp)
      have hne : x ≠ '.' := by
        rintro rfl
        rcases mem_cons.mp hx with heq | hx
        · exact absurd w.head_ok (by rw [← heq]; decide)
        · exact absurd (all_eq_true.mp w.tail_ok '.' hx) (by decide)
      simpa using hne
    have htype : type.chars = type'.chars := by rw [← hdot type, h, hdot type']
    rw [htype] at h
    have hvalue := append_cancel_left (append_cancel_left h)
    rw [Word.chars_inj htype, Word.chars_inj hvalue]
  · simp only [Leaf.text, Name.reference, Name.plain, referenceText, String.toList_append, String.toList_ofList] at h
    have hchars := append_cancel_left (append_cancel_right h)
    rw [Name.chars_inj hchars]

theorem endsWord_of_closes {limit : Nat} {number : Bool} (h : Closes limit number rest) :
    ∀ x ∈ rest.head?, endsWord x = true := by
  intro x hx
  have hclosers : [' ', ';', ')'].all endsWord = true := by decide
  exact all_eq_true.mp hclosers x (h.head_mem x hx)

theorem Leaf.quoted_of_kind (h : a.kind = 1) : ∃ q, a = .quoted q := by
  rcases a with n | (_ | _) | _ | q | ⟨type, value⟩ | w <;> try (simp [Leaf.kind] at h; done)
  exact ⟨q, rfl⟩

theorem Leaf.append_inj {limit : Nat} {a' : Leaf} (hrest : Closes limit false rest)
    (hrest' : Closes limit false rest')
    (h : (a.text Name.reference).toList ++ rest = (a'.text Name.reference).toList ++ rest') :
    a = a' ∧ rest = rest' := by
  obtain ⟨x, s, hs, hx⟩ := a.exists_head
  obtain ⟨x', s', hs', hx'⟩ := a'.exists_head
  have hkind : a.kind = a'.kind := by
    rw [hs, hs'] at h
    rw [← hx, ← hx', (List.cons.inj h).1]
  by_cases hquoted : a.kind = 1
  · obtain ⟨q, rfl⟩ := Leaf.quoted_of_kind hquoted
    obtain ⟨q', rfl⟩ := Leaf.quoted_of_kind (hkind ▸ hquoted)
    simp only [Leaf.text, String.toList_ofList] at h
    -- the length of a literal is found from its start, whatever follows
    have hlength : q.chars.length = q'.chars.length := by
      have hq := q.quotedString?_chars rest
      rw [h, q'.quotedString?_chars] at hq
      exact (Option.some.inj hq).symm
    obtain ⟨hchars, hrest⟩ := List.append_inj h hlength
    exact ⟨by rw [Quoted.chars_inj hchars], hrest⟩
  · have hquoted' : a'.kind ≠ 1 := by rwa [← hkind]
    obtain ⟨htext, hrest⟩ := append_inj_of_word (Leaf.endsWord_of_mem hquoted)
      (Leaf.endsWord_of_mem hquoted') (endsWord_of_closes hrest) (endsWord_of_closes hrest') h
    exact ⟨Leaf.text_inj hkind hquoted htext, hrest⟩

def BinaryOp.all : List BinaryOp :=
  [.mul, .div, .rem, .add, .sub, .shiftLeft, .shiftRight, .le, .lt, .ge, .gt, .instanceOf, .isIn, .same,
    .equal, .notSame, .notEqual, .bitAnd, .bitXor, .bitOr, .and, .or]

theorem BinaryOp.find?_all (op : BinaryOp) : BinaryOp.all.find? (·.text == op.text) = some op := by
  cases op <;> decide

theorem BinaryOp.append_inj {op op' : BinaryOp}
    (h : op.text.toList ++ ' ' :: s = op'.text.toList ++ ' ' :: t) : op = op' ∧ s = t := by
  have hword : ∀ op : BinaryOp, ∀ x ∈ op.text.toList, endsWord x = false := by
    intro op
    cases op <;> exact eq_false_of_all (by decide)
  obtain ⟨htext, hrest⟩ := append_inj_of_word (hword op) (hword op') (by simp [endsWord]) (by simp [endsWord]) h
  have hfind := op.find?_all
  rw [String.toList_inj.mp htext, op'.find?_all] at hfind
  exact ⟨(Option.some.inj hfind).symm, (List.cons.inj hrest).2⟩

theorem UnaryOp.append_inj {op op' : UnaryOp}
    (h : op.text.toList ++ ' ' :: s = op'.text.toList ++ ' ' :: t) : op = op' ∧ s = t := by
  cases op <;> cases op' <;> simp [UnaryOp.text] at h ⊢ <;> exact h

theorem Leaf.append_ne_cons (a : Leaf) (hx : kindOf x ∉ [0, 1, 2, 36, 102, 110, 116]) :
    (a.text Name.reference).toList ++ rest ≠ x :: s := by
  intro h
  have hkinds : a.kind ∈ [0, 1, 2, 36, 102, 110, 116] := by
    rcases a with n | (_ | _) | _ | q | ⟨type, value⟩ | w <;> simp [Leaf.kind]
  obtain ⟨y, t, ht, hy⟩ := a.exists_head
  rw [ht] at h
  rw [← hy, (List.cons.inj h).1] at hkinds
  exact hx hkinds

theorem Leaf.append_ne_sign (a : Leaf) (op : UnaryOp) :
    (a.text Name.reference).toList ++ rest ≠ op.text.toList ++ ' ' :: s := by
  cases op with
  | not | complement | plus | minus => exact a.append_ne_cons (by decide)
  | typeof =>
    -- the first letter is also that of a truth value
    intro h
    obtain ⟨x, t, ht, hx⟩ := a.exists_head
    have hkind : a.kind = 116 := by
      rw [ht] at h
      rw [← hx, (List.cons.inj h).1]
      decide
    rcases a with n | (_ | _) | _ | q | ⟨type, value⟩ | w <;> try (simp [Leaf.kind] at hkind; done)
    simp [Leaf.text, UnaryOp.text] at h

theorem UnaryOp.append_ne_cons (op : UnaryOp) : op.text.toList ++ rest ≠ '(' :: s := by
  cases op <;> simp [UnaryOp.text]

/-- Texts up to a rank shorter than `n` determine their expressions. -/
def LevelsUnique (n : Nat) : Prop :=
  ∀ (e e' : Expr) (level : Nat) (rest rest' : List Char), level ≤ 10 →
    (e.within Name.reference level).toList.length < n → Closes level false rest → Closes level false rest' →
    (e.within Name.reference level).toList ++ rest = (e'.within Name.reference level).toList ++ rest' →
    e = e' ∧ rest = rest'

/-- Whole texts shorter than `n` determine their expressions. -/
def ConditionalUnique (n : Nat) : Prop :=
  ∀ (e e' : Expr) (rest rest' : List Char), (e.text Name.reference).toList.length < n →
    Ends rest → Ends rest' →
    (e.text Name.reference).toList ++ rest = (e'.text Name.reference).toList ++ rest' →
    e = e' ∧ rest = rest'

/-- The tightest operands: a leaf, a sign with its operand, or parentheses. -/
inductive Tight : Expr → List Char → Prop where
  | leaf (a : Leaf) : Tight (.leaf a) (a.text Name.reference).toList
  | unary (op : UnaryOp) (e : Expr) :
      Tight (.unary op e) (op.text.toList ++ ' ' :: (e.within Name.reference 0).toList)
  | group (e : Expr) : Tight e ('(' :: ((e.text Name.reference).toList ++ [')']))

theorem Expr.tight (e : Expr) : Tight e (e.within Name.reference 0).toList := by
  by_cases hrank : e.rank ≤ 0
  · rw [within_of_le hrank]
    cases e with
    | leaf a => exact .leaf a
    | unary op e =>
      rw [toList_unary]
      exact .unary op e
    | binary op l r | conditional test yes no => simp [rank] at hrank
  · rw [within_of_lt (by omega), toList_parenthesised]
    exact .group e

theorem tight_unique (hl : LevelsUnique n) (hc : ConditionalUnique n) {e e' : Expr}
    (hs : Tight e s) (ht : Tight e' t) (hlen : s.length < n + 1) (hrest : Closes 0 false rest)
    (hrest' : Closes 0 false rest') (h : s ++ rest = t ++ rest') : e = e' ∧ rest = rest' := by
  cases hs with
  | leaf a =>
    cases ht with
    | leaf a' =>
      obtain ⟨rfl, hrest⟩ := Leaf.append_inj hrest hrest' h
      exact ⟨rfl, hrest⟩
    | unary op e' =>
      rw [append_assoc] at h
      exact absurd h (a.append_ne_sign op)
    | group e' => exact absurd h (a.append_ne_cons (by decide))
  | unary op e =>
    rw [append_assoc] at h
    cases ht with
    | leaf a => exact absurd h.symm (a.append_ne_sign op)
    | unary op' e' =>
      rw [append_assoc] at h
      obtain ⟨rfl, htext⟩ := UnaryOp.append_inj h
      rw [length_append, length_cons] at hlen
      obtain ⟨rfl, hrest⟩ := hl e e' 0 rest rest' (by omega) (by omega) hrest hrest' htext
      exact ⟨rfl, hrest⟩
    | group e' => exact absurd h op.append_ne_cons
  | group e =>
    cases ht with
    | leaf a => exact absurd h.symm (a.append_ne_cons (by decide))
    | unary op e' =>
      rw [append_assoc] at h
      exact absurd h.symm op.append_ne_cons
    | group e' =>
      simp only [cons_append, append_assoc, List.cons.injEq, true_and] at h
      simp only [length_cons, length_append, length_nil] at hlen
      obtain ⟨rfl, htext⟩ := hc e e' _ _ (by omega) (.mark (.inr rfl)) (.mark (.inr rfl)) h
      exact ⟨rfl, (List.cons.inj htext).2⟩

theorem Closes.ne_step (h : Closes (level + 1) false rest) {op : BinaryOp} (hop : op.level = level) :
    rest ≠ ' ' :: (op.text.toList ++ ' ' :: s) := by
  cases h with
  | mark hx => rcases hx with rfl | rfl <;> simp
  | branch hx => rcases hx with rfl | rfl <;> cases op <;> simp [BinaryOp.text]
  | operator op' hlevel hrem =>
    intro heq
    obtain ⟨rfl, -⟩ := BinaryOp.append_inj (List.cons.inj heq).2
    omega

def Determined (level : Nat) (e : Expr) : Prop :=
  ∀ e' rest rest', Closes level false rest → Closes level false rest' →
    (e.within Name.reference level).toList ++ rest = (e'.within Name.reference level).toList ++ rest' →
    e = e' ∧ rest = rest'

theorem steps_unique {steps steps' : List (BinaryOp × Expr)}
    (hlevel : ∀ step ∈ steps, step.1.level = level) (hlevel' : ∀ step ∈ steps', step.1.level = level)
    (hunique : ∀ step ∈ steps, Determined level step.2) (hrest : Closes (level + 1) false rest)
    (hrest' : Closes (level + 1) false rest')
    (h : Expr.stepChars Name.reference level steps ++ rest =
      Expr.stepChars Name.reference level steps' ++ rest') : steps = steps' ∧ rest = rest' := by
  induction steps generalizing steps' with
  | nil =>
    cases steps' with
    | nil => exact ⟨rfl, h⟩
    | cons step' steps' =>
      rw [stepChars_cons] at h
      exact absurd h (hrest.ne_step (hlevel' step' (by simp)))
  | cons step steps ih =>
    rw [stepChars_cons] at h
    cases steps' with
    | nil => exact absurd h.symm (hrest'.ne_step (hlevel step (by simp)))
    | cons step' steps' =>
      rw [stepChars_cons] at h
      obtain ⟨-, htail⟩ := forall_mem_cons.mp hlevel
      obtain ⟨-, htail'⟩ := forall_mem_cons.mp hlevel'
      obtain ⟨hop, htext⟩ := BinaryOp.append_inj (List.cons.inj h).2
      obtain ⟨hoperand, htext⟩ := hunique step (by simp) _ _ _ (.steps_of_false htail hrest)
        (.steps_of_false htail' hrest') htext
      obtain ⟨rfl, hrest⟩ := ih htail htail' (fun other hmem => hunique other (by simp [hmem])) htext
      have hstep : step = step' := Prod.ext hop hoperand
      exact ⟨by rw [hstep], hrest⟩

theorem LevelsUnique.step (hl : LevelsUnique n) (hc : ConditionalUnique n) : LevelsUnique (n + 1) := by
  intro e e' level
  induction level generalizing e e' with
  | zero =>
    intro rest rest' _ hlen hrest hrest' h
    exact tight_unique hl hc e.tight e'.tight hlen hrest hrest' h
  | succ level ih =>
    intro rest rest' hlevel hlen hrest hrest' h
    have htext := congrArg List.length (toList_within_succ Name.reference hlevel e)
    rw [length_append] at htext
    have hsteps := level_of_mem_spine level e
    have hsteps' := level_of_mem_spine level e'
    rw [toList_within_succ _ hlevel, toList_within_succ _ hlevel, append_assoc, append_assoc] at h
    obtain ⟨hhead, htail⟩ := ih _ _ _ _ (by omega) (by omega) (.steps_of_false hsteps hrest)
      (.steps_of_false hsteps' hrest') h
    have hunique : ∀ step ∈ (e.spine level).2, Determined level step.2 := by
      intro step hmem e' rest rest'
      have hstep := length_le_stepChars Name.reference level hmem
      exact ih step.2 e' rest rest' (by omega) (by omega)
    obtain ⟨hspine, hrest⟩ := steps_unique hsteps hsteps' hunique hrest hrest' htail
    refine ⟨?_, hrest⟩
    rw [eq_foldl_spine level e, eq_foldl_spine level e', hhead, hspine]

/-- The text of an expression is that of the loosest binary level, unless it is a conditional. -/
theorem Expr.text_cases (e : Expr) :
    (∃ test yes no, e = conditional test yes no) ∨ e.text Name.reference = e.within Name.reference 10 := by
  cases e with
  | conditional test yes no => exact .inl ⟨test, yes, no, rfl⟩
  | leaf a | unary op e => exact .inr (within_of_le (by simp [rank])).symm
  | binary op l r =>
    have := op.level_lt
    exact .inr (within_of_le (by simp only [rank]; omega)).symm

theorem Ends.ne_question (h : Ends rest) : rest ≠ ' ' :: '?' :: s := by
  cases h with
  | mark hx => rcases hx with rfl | rfl <;> simp
  | colon => simp

theorem ConditionalUnique.step (hc : ConditionalUnique n) (hl : LevelsUnique (n + 1)) :
    ConditionalUnique (n + 1) := by
  intro e e' rest rest' hlen hrest hrest' h
  rcases e.text_cases with ⟨test, yes, no, rfl⟩ | htext <;>
    rcases e'.text_cases with ⟨test', yes', no', rfl⟩ | htext'
  · rw [toList_conditional] at hlen
    simp only [toList_conditional, append_assoc, cons_append] at h
    simp only [length_append, length_cons] at hlen
    obtain ⟨rfl, hyes⟩ :=
      hl test test' 10 _ _ (by omega) (by omega) (.branch (.inl rfl)) (.branch (.inl rfl)) h
    simp only [List.cons.injEq, true_and] at hyes
    obtain ⟨rfl, hno⟩ := hc yes yes' _ _ (by omega) .colon .colon hyes
    simp only [List.cons.injEq, true_and] at hno
    obtain ⟨rfl, hend⟩ := hc no no' _ _ (by omega) hrest hrest' hno
    exact ⟨rfl, hend⟩
  · rw [toList_conditional] at hlen
    rw [toList_conditional, htext', append_assoc] at h
    simp only [length_append, length_cons] at hlen
    obtain ⟨-, hrests⟩ := hl test e' 10 _ _ (by omega) (by omega) (.branch (.inl rfl)) hrest'.closes h
    exact absurd hrests.symm hrest'.ne_question
  · rw [toList_conditional, htext, append_assoc] at h
    rw [htext] at hlen
    obtain ⟨-, hrests⟩ := hl e test' 10 _ _ (by omega) hlen hrest.closes (.branch (.inl rfl)) h
    exact absurd hrests hrest.ne_question
  · rw [htext, htext'] at h
    rw [htext] at hlen
    exact hl e e' 10 _ _ (by omega) hlen hrest.closes hrest'.closes h

theorem levelsUnique_and_conditionalUnique (n : Nat) : LevelsUnique n ∧ ConditionalUnique n := by
  induction n with
  | zero =>
    refine ⟨?_, ?_⟩
    · intro e e' level rest rest' _ hlen
      exact absurd hlen (Nat.not_lt_zero _)
    · intro e e' rest rest' hlen
      exact absurd hlen (Nat.not_lt_zero _)
  | succ n ih =>
    have hl := ih.1.step ih.2
    exact ⟨hl, ih.2.step hl⟩

theorem Expr.eq_of_text_eq {e e' : Expr} (h : e.text Name.reference = e'.text Name.reference) : e = e' := by
  have hends : Ends [';'] := .mark (.inl rfl)
  have hchars : (e.text Name.reference).toList ++ [';'] = (e'.text Name.reference).toList ++ [';'] := by
    rw [h]
  exact ((levelsUnique_and_conditionalUnique _).2 e e' _ _ (Nat.lt_succ_self _) hends hends hchars).1

end QmlScript.Grammar
