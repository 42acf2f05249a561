import QmlScript.Proofs.Expression.Operand

/-!
# Escapes are resolved in passes

A string literal is decoded in five passes over its text, each for one kind of escape. A pass does not
know which backslashes belong together: the second of the two that stand for a backslash can open an
escape of its own.
-/

namespace QmlScript.Grammar

open List Text

variable {s t put : List Char} {find : Text.Recogniser (List Char)} {k n : Nat} {x y : Char}

theorem substitute_cons (h : find (x :: s) = none) : substitute find (x :: s) = x :: substitute find s := by
  rw [substitute, substituteFrom, h]
  rfl

theorem substitute_pair (h : find (x :: y :: s) = some (put, 2)) :
    substitute find (x :: y :: s) = put ++ substitute find s := by
  rw [substitute, substituteFrom, h]
  rfl

def hexRun (k : Nat) (s : List Char) : Bool := k ≤ (s.takeWhile isHexDigit).length

/-- Whether behind a backslash stands the rest of an escape with a number. -/
def restsEscape : List Char → Bool
  | [] => false
  | x :: s => x.isDigit || (x = 'x' || x = 'X') && hexRun 2 s || (x = 'u' || x = 'U') && hexRun 4 s

/-- The recogniser finds nothing but escapes with a number. -/
def Numeric (find : Text.Recogniser (List Char)) : Prop :=
  ∀ s, (find s).isSome = true → ∃ t, s = '\\' :: t ∧ restsEscape t = true

theorem hexValue?_of_readDigits? {base : Nat} (h : (Number.readDigits? base s).isSome = true) :
    ∀ x ∈ s, (hexValue? x).isSome = true := by
  have hfold : ∀ (s : List Char) (acc : Option Nat), (s.foldl (fun acc c => do
      let n ← acc
      let d ← hexValue? c
      if d < base then some (n * base + d) else none) acc).isSome = true →
      acc.isSome = true ∧ ∀ x ∈ s, (hexValue? x).isSome = true := by
    intro s
    induction s with
    | nil => exact fun acc hacc => ⟨hacc, by simp⟩
    | cons x s ih =>
      intro acc hacc
      obtain ⟨hstep, hs⟩ := ih _ hacc
      cases acc with
      | none => simp at hstep
      | some m =>
        cases hx : hexValue? x with
        | none => simp [hx] at hstep
        | some d => simpa [hx] using hs
  rw [Number.readDigits?] at h
  split at h
  · cases h
  · exact (hfold s (some 0) h).2

theorem hexRun_of_hexEscape? (h : (hexEscape? k s).isSome = true) : hexRun k s = true := by
  rw [hexEscape?] at h
  split at h
  · rename_i hcode
    simp only [Bool.and_eq_true, decide_eq_true_eq, all_eq_true] at hcode
    have hhex : ∀ x ∈ s.take k, isHexDigit x = true := fun x hx => by
      simp [isHexDigit, hcode.2 x hx, hexValue?_of_readDigits? (by simpa using h) x hx]
    rw [hexRun, decide_eq_true_eq, ← take_append_drop k s, takeWhile_append_of_pos hhex, length_append, hcode.1]
    exact Nat.le_add_right _ _
  · cases h

theorem numeric_letterEscape? {small capital : Char}
    (hrest : ∀ x s, x = small ∨ x = capital → hexRun k s = true → restsEscape (x :: s) = true) :
    Numeric (letterEscape? small capital k) := by
  intro s h
  unfold letterEscape? at h
  split at h
  · split at h
    · rename_i hx
      exact ⟨_, rfl, hrest _ _ (by simpa using hx) (hexRun_of_hexEscape? (by simpa using h))⟩
    · cases h
  · cases h

theorem numeric_octalEscape? : Numeric octalEscape? := by
  intro s h
  unfold octalEscape? at h
  split at h
  · rename_i s
    dsimp only at h
    split at h
    · rename_i hcode
      simp only [Bool.and_eq_true, decide_eq_true_eq, all_eq_true] at hcode
      cases s with
      | nil => cases hcode.1
      | cons x s =>
        have hoctal := hcode.2 x (by simp)
        have hdigit : x.isDigit = true := by
          rw [Char.isDigit, Bool.and_eq_true, decide_eq_true_eq, decide_eq_true_eq]
          exact ⟨hoctal.1, Char.le_trans hoctal.2 (by decide)⟩
        exact ⟨_, rfl, by simp [restsEscape, hdigit]⟩
    · cases h
  · cases h

theorem numeric_digitEscape? : Numeric digitEscape? := by
  intro s h
  unfold digitEscape? at h
  split at h
  · split at h
    · rename_i hdigit
      exact ⟨_, rfl, by simp [restsEscape, hdigit]⟩
    · cases h
  · cases h

theorem Numeric.eq_none (hfind : Numeric find) (h : x = '\\' → restsEscape s = false) : find (x :: s) = none := by
  rw [← Option.not_isSome_iff_eq_none]
  intro hsome
  obtain ⟨t, heq, ht⟩ := hfind _ hsome
  obtain ⟨rfl, rfl⟩ := List.cons.inj heq
  rw [h rfl] at ht
  cases ht

/-- A character of an escaped text: backslashes, quotes and moves of the cursor stand behind a backslash. -/
def escapeChar (x : Char) : List Char :=
  if x = '\\' || isQuote x then ['\\', x]
  else if x = '\n' then ['\\', 'n']
  else if x = '\r' then ['\\', 'r']
  else if x = '\t' then ['\\', 't']
  else if x = '\x0b' then ['\\', 'v']
  else if x = '\x0c' then ['\\', 'f']
  else if x = '\x08' then ['\\', 'b']
  else [x]

def escape (s : List Char) : List Char := s.flatMap escapeChar

/-- Whether no backslash looks like the start of an escape with a number. -/
def isKept : List Char → Bool
  | [] => true
  | x :: s => !(x = '\\' && restsEscape s) && isKept s

/-- The characters that are pairs in an escaped text. -/
def pairs : List (Char × Char) :=
  [('\\', '\\'), ('"', '"'), ('\'', '\''), ('\x60', '\x60'), ('\n', 'n'), ('\r', 'r'), ('\t', 't'), ('\x0b', 'v'),
    ('\x0c', 'f'), ('\x08', 'b')]

theorem escapeChar_cases (x : Char) :
    (∃ y, (x, y) ∈ pairs ∧ escapeChar x = ['\\', y]) ∨ x ≠ '\\' ∧ escapeChar x = [x] := by
  rw [escapeChar]
  split_ifs with h
  · refine .inl ⟨x, ?_, rfl⟩
    simp only [isQuote, Bool.or_eq_true, decide_eq_true_eq] at h
    rcases h with rfl | (rfl | rfl) | rfl <;> decide
  all_goals first
    | exact .inr ⟨by simpa using fun hx => h (by simp [hx]), rfl⟩
    | exact .inl ⟨_, by subst x; decide, rfl⟩

/-- A pair is its character, and its second is in no escape with a number. -/
theorem pairs_spec : ∀ p ∈ pairs, escapedChar p.2 = p.1 ∧ p.2 ≠ '\n' ∧ (p.2 = '\\' → p.1 = '\\') ∧
    p.2.isDigit = false ∧ p.2 ∉ ['x', 'X', 'u', 'U'] := by
  decide

theorem restsEscape_of_not_letter (hdigit : x.isDigit = false) (h : x ∉ ['x', 'X', 'u', 'U']) :
    restsEscape (x :: s) = false := by
  simp only [mem_cons, not_mem_nil, or_false, not_or] at h
  simp [restsEscape, hdigit, h]

theorem takeWhile_escape_le (s : List Char) :
    ((escape s).takeWhile isHexDigit).length ≤ (s.takeWhile isHexDigit).length := by
  induction s with
  | nil => exact Nat.le_refl _
  | cons x s ih =>
    rw [escape, flatMap_cons, ← escape]
    obtain ⟨y, -, hx⟩ | ⟨-, hx⟩ := escapeChar_cases x
    · rw [hx, cons_append, takeWhile_cons_of_neg (by decide)]
      exact Nat.zero_le _
    · rw [hx, singleton_append, takeWhile_cons, takeWhile_cons]
      split_ifs
      · exact Nat.succ_le_succ ih
      · exact Nat.le_refl _

theorem restsEscape_escape (h : restsEscape s = false) : restsEscape (escape s) = false := by
  have hrun : ∀ k s, hexRun k s = false → hexRun k (escape s) = false := by
    intro k s hs
    simp only [hexRun, decide_eq_false_iff_not] at hs ⊢
    exact fun hk => hs (hk.trans (takeWhile_escape_le s))
  cases s with
  | nil => rfl
  | cons x s =>
    rw [escape, flatMap_cons, ← escape]
    obtain ⟨y, -, hx⟩ | ⟨-, hx⟩ := escapeChar_cases x
    · rw [hx]
      exact restsEscape_of_not_letter (by decide) (by decide)
    · rw [hx, singleton_append]
      simp only [restsEscape, Bool.or_eq_false_iff, Bool.and_eq_false_iff] at h ⊢
      exact h.imp (And.imp_right (Or.imp_right (hrun 2 s))) (Or.imp_right (hrun 4 s))

/-- A pass leaves an escaped text without such backslashes. -/
theorem Numeric.substitute_escape (hfind : Numeric find) (hs : isKept s = true) :
    substitute find (escape s) = escape s := by
  induction s with
  | nil => rfl
  | cons x s ih =>
    rw [isKept, Bool.and_eq_true] at hs
    specialize ih hs.2
    rw [escape, flatMap_cons, ← escape]
    obtain ⟨y, hpair, hx⟩ | ⟨hne, hx⟩ := escapeChar_cases x
    · obtain ⟨-, -, hslash, hdigit, hletter⟩ := pairs_spec _ hpair
      have hfirst : find ('\\' :: y :: escape s) = none :=
        hfind.eq_none fun _ => restsEscape_of_not_letter hdigit hletter
      have hsecond : find (y :: escape s) = none := by
        refine hfind.eq_none fun hy => restsEscape_escape ?_
        simpa [show x = '\\' from hslash hy] using hs.1
      rw [hx, cons_append, singleton_append, substitute_cons hfirst, substitute_cons hsecond, ih]
    · rw [hx, singleton_append, substitute_cons (hfind.eq_none fun heq => absurd heq hne), ih]

theorem charEscape?_of_ne (h : x ≠ '\\') : charEscape? (x :: s) = none := by
  unfold charEscape?
  split
  · rename_i heq
    exact absurd (List.cons.inj heq).1 h
  · rfl

theorem substitute_charEscape?_escape (s : List Char) : substitute charEscape? (escape s) = s := by
  induction s with
  | nil => rfl
  | cons x s ih =>
    rw [escape, flatMap_cons, ← escape]
    obtain ⟨y, hpair, hx⟩ | ⟨hne, hx⟩ := escapeChar_cases x
    · obtain ⟨hchar, hline, -⟩ := pairs_spec _ hpair
      have hfind : charEscape? ('\\' :: y :: escape s) = some ([x], 2) := by rw [charEscape?, if_neg hline, hchar]
      rw [hx, cons_append, singleton_append, substitute_pair hfind, ih]
      rfl
    · rw [hx, singleton_append, substitute_cons (charEscape?_of_ne hne), ih]

/-- An escaped text is decoded to what it was, if behind no backslash of it stands what looks like the rest of
an escape with a number. -/
theorem unquote_escape (s : List Char) (h : isKept s = true) : unquote (escape s) = s := by
  have htwo : Numeric (letterEscape? 'x' 'X' 2) := numeric_letterEscape? fun x s hx hs => by
    rcases hx with rfl | rfl <;> simp [restsEscape, hs]
  have hfour : Numeric (letterEscape? 'u' 'U' 4) := numeric_letterEscape? fun x s hx hs => by
    rcases hx with rfl | rfl <;> simp [restsEscape, hs]
  rw [unquote, htwo.substitute_escape h, hfour.substitute_escape h, numeric_octalEscape?.substitute_escape h,
    numeric_digitEscape?.substitute_escape h, substitute_charEscape?_escape]

theorem unquote_escape_every :
    unquote (escape "\\\\ \"quoted\"\\x4\\n\n\r\t\x0b\x0c\x08\x60".toList) =
      "\\\\ \"quoted\"\\x4\\n\n\r\t\x0b\x0c\x08\x60".toList :=
  unquote_escape _ (by decide)

/-- A backslash before a digit is lost, with the digit. -/
theorem unquote_escape_digit : unquote (escape ['\\', '1']) = ['\x01'] := by decide

end QmlScript.Grammar
