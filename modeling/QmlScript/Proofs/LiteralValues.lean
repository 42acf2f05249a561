import QmlScript.Component
import QmlScript.Proofs.WholeWords

/-!
# Values of string literals

Characters of a string literal that move the cursor are written as escapes in the text that is assigned. It
denotes the same string, unless a backslash stands before such a character: what continued a line does not any
more.
-/

namespace QmlScript.Grammar

open QmlScript.Grammar.Parser List

variable {s : List Char} {x : Char}

/-- The code units of a character in UTF-16. -/
def codeUnits (code : Nat) : List Nat :=
  if code < 0x10000 then [code]
  else [0xd800 + (code - 0x10000) / 0x400, 0xdc00 + (code - 0x10000) % 0x400]

/-- Where a character of a literal stands: in the open, behind a dollar sign or the brace of a substitution, or in an
escape. -/
inductive Place where
  | outside
  | dollar
  | hole
  | letter
  | hex (digits value : Nat)
  | braces (value : Option Nat)
  | octal (digits value : Nat)
  deriving DecidableEq

namespace Place

def isOctal (x : Char) : Bool := '0' ≤ x && x ≤ '7'

def hexDigit? (x : Char) : Option Nat := if isHexDigit x then Text.hexValue? x else none

def hexStep (digits value : Nat) (x : Char) : Option (Place × List Nat) :=
  (hexDigit? x).map fun d =>
    if digits ≤ 1 then (outside, codeUnits (16 * value + d)) else (hex (digits - 1) (16 * value + d), [])

/-- The place behind a character, and the code units it completes. -/
def goOn (x : Char) : Place → Option (Place × List Nat)
  | outside | hole => none
  | dollar => if x = '\x7b' then some (hole, []) else none
  | letter => if x = '\x7b' then some (braces none, []) else hexStep 4 0 x
  | hex digits value => hexStep digits value x
  | braces value =>
    if x = '\x7d' then (value.filter (· ≤ 0x10ffff)).map fun value => (outside, codeUnits value)
    else (hexDigit? x).map fun d => (braces (some (16 * value.getD 0 + d)), [])
  | octal digits value =>
    if isOctal x && 0 < digits then some (octal (digits - 1) (8 * value + (x.toNat - '0'.toNat)), []) else none

/-- The code units completed where nothing goes on, if that is allowed. -/
def completed : Place → Option (List Nat)
  | outside => some []
  | dollar => some (codeUnits '$'.toNat)
  | octal _ value => some (codeUnits value)
  | _ => none

/-- The place behind something that starts anew. -/
def startAnew (found : Place × List Nat) (place : Place) : Option (Place × List Nat) :=
  place.completed.map fun before => (found.1, before ++ found.2)

/-- What the first character of an escape means; a line end means nothing. -/
def escaped (x : Char) : Place × List Nat :=
  if x = 'x' then (hex 2 0, [])
  else if x = 'u' then (letter, [])
  else if isOctal x then (octal (if x ≤ '3' then 2 else 1) (x.toNat - '0'.toNat), [])
  else if x ∈ ['\n', '\r', '\u2028', '\u2029'] then (outside, [])
  else (outside, codeUnits (escapedChar x).toNat)

def step (template : Bool) (x : Char) (place : Place) : Option (Place × List Nat) :=
  (place.goOn x).or
    (place.startAnew (if template && x = '$' then (dollar, []) else (outside, codeUnits x.toNat)))

/-- The code units the rest of a literal denotes; none if an escape is open, or something is substituted. -/
def units (template : Bool) : Place → List Char → Option (List Nat)
  | place, [] => place.completed
  | _, ['\\'] => none
  | place, '\\' :: '\r' :: '\n' :: s =>
    (place.startAnew (outside, [])).bind fun found => (units template found.1 s).map (found.2 ++ ·)
  | place, '\\' :: x :: s =>
    (place.startAnew (escaped x)).bind fun found => (units template found.1 s).map (found.2 ++ ·)
  | place, x :: s => (place.step template x).bind fun found => (units template found.1 s).map (found.2 ++ ·)

end Place

/-- The code units that a literal denotes. -/
def literalUnits : List Char → Option (List Nat)
  | quote :: s => Place.outside.units (quote = '\x60') s.dropLast
  | [] => none

/-- Whether no backslash stands before a character that moves the cursor. -/
def keepsEscapes : List Char → Bool
  | '\\' :: x :: s => !movesCursor x && keepsEscapes s
  | _ :: s => keepsEscapes s
  | [] => true

@[elab_as_elim]
theorem of_moves {P : Char → Prop} (hx : movesCursor x = true) (h : ∀ n < 14, 9 ≤ n → P (Char.ofNat n)) :
    P x := by
  simp only [movesCursor, Bool.and_eq_true, decide_eq_true_eq] at hx
  exact Char.ofNat_toNat x ▸ h x.toNat (by omega) hx.1

theorem literalChar_of_moves (hx : movesCursor x = true) : ∃ y ∈ ['t', 'r', 'n', 'v', 'f'],
    literalChar x = ['\\', y] ∧ Place.escaped y = (.outside, codeUnits x.toNat) := by
  have hany : ['t', 'r', 'n', 'v', 'f'].any (fun y =>
      literalChar x = ['\\', y] && Place.escaped y = (.outside, codeUnits x.toNat)) = true := of_moves hx (by decide)
  simpa only [any_eq_true, Bool.and_eq_true, decide_eq_true_eq] using hany

theorem literalText_cons (x : Char) (s : List Char) : literalText (x :: s) = literalChar x ++ literalText s := rfl

namespace Place

variable {place : Place} {template : Bool}

/-- No escape goes on with a character that moves the cursor. -/
theorem step_of_moves (hx : movesCursor x = true) :
    place.step template x = place.startAnew (outside, codeUnits x.toNat) := by
  have hchar : (hexDigit? x = none ∧ isOctal x = false) ∧ x ∉ ['$', '\x7b', '\x7d'] := of_moves hx (by decide)
  simp only [mem_cons, not_mem_nil, or_false, not_or] at hchar
  obtain ⟨⟨hhex, hoctal⟩, hdollar, hopen, hclose⟩ := hchar
  have hnone : place.goOn x = none := by cases place <;> simp [goOn, hexStep, *]
  simp [step, hnone, hdollar]

theorem units_escape (hx : x ≠ '\r') : place.units template ('\\' :: x :: s) =
    (place.startAnew (escaped x)).bind fun found => (found.1.units template s).map (found.2 ++ ·) := by
  rw [units]
  exact fun _ heq => (hx heq).elim

theorem units_cons (hx : x ≠ '\\') : place.units template (x :: s) =
    (place.step template x).bind fun found => (found.1.units template s).map (found.2 ++ ·) := by
  rw [units] <;> intros <;> contradiction

/-- Characters that move the cursor denote the same as escapes. -/
theorem units_literalText (h : keepsEscapes s = true) :
    place.units template (literalText s) = place.units template s := by
  fun_induction keepsEscapes s generalizing place with
  | case1 x s ih =>
    rw [Bool.and_eq_true, Bool.not_eq_true'] at h
    have hreturn : x ≠ '\r' := by
      rintro rfl
      exact absurd h.1 (by decide)
    have htext : literalText ('\\' :: x :: s) = '\\' :: x :: literalText s := by
      rw [literalText_cons, literalText_cons, literalChar_of_not_moves h.1]
      rfl
    simp only [htext, units_escape hreturn, ih h.2]
  | case2 x s hescape ih =>
    rw [literalText_cons]
    cases hmoves : movesCursor x with
    | false =>
      rw [literalChar_of_not_moves hmoves, singleton_append]
      by_cases hx : x = '\\'
      · cases s with
        | nil => rfl
        | cons y s => exact (hescape y s hx rfl).elim
      · simp only [units_cons hx, ih h]
    | true =>
      obtain ⟨y, hy, hchar, hescaped⟩ := literalChar_of_moves hmoves
      have hx : x ≠ '\\' := by
        rintro rfl
        cases hmoves
      have hreturn : y ≠ '\r' := by
        rintro rfl
        exact absurd hy (by decide)
      rw [hchar, cons_append, singleton_append, units_escape hreturn, units_cons hx, step_of_moves hmoves, hescaped]
      simp only [ih h]
  | case3 => rfl

end Place

theorem literalUnits_literalText (q : Literal) (h : keepsEscapes q.body = true) :
    literalUnits (literalText q.chars) = literalUnits q.chars := by
  have hquote : literalChar q.quote = [q.quote] := by
    have hall := q.quote_ok
    simp only [isQuote, Bool.or_eq_true, decide_eq_true_eq] at hall
    rcases hall with (hq | hq) | hq <;> rw [hq] <;> rfl
  have htext : literalText q.chars = q.quote :: (literalText q.body ++ [q.quote]) := by
    rw [Literal.chars, literalText_cons, hquote, literalText, flatMap_append, flatMap_singleton, hquote]
    rfl
  rw [htext, Literal.chars, literalUnits, literalUnits, dropLast_concat, dropLast_concat, Place.units_literalText h]

theorem newline_not_mem_literalText (s : List Char) : '\n' ∉ literalText s := by
  intro hmem
  obtain ⟨x, -, hx⟩ := mem_flatMap.mp hmem
  cases hmoves : movesCursor x with
  | true =>
    obtain ⟨y, hy, heq, -⟩ := literalChar_of_moves hmoves
    rw [heq, mem_cons, mem_singleton] at hx
    rcases hx with hx | rfl
    · cases hx
    · exact absurd hy (by decide)
  | false =>
    rw [literalChar_of_not_moves hmoves, mem_singleton] at hx
    rw [← hx] at hmoves
    cases hmoves

/-- The text of a literal as it is assigned. -/
def Literal.emitted (q : Literal) : String := String.ofList (literalText q.chars)

/-- A literal stands in any expression, and in the value that is assigned, as a text that denotes the same string,
if no escape is a backslash before a character that moves the cursor. -/
theorem assigned_literal (history : History) (q : Literal) (h : keepsEscapes q.body = true) :
    (∀ bound rest, Reads (operand (bound + 1)) q.chars q.emitted rest) ∧
    (parse history (assigningText (String.ofList q.chars))).result =
      .ok (assignedTree history.pending (parenthesised q.emitted)) ∧
    Component.assignedPlain (.str (parenthesised q.emitted)) = .text (parenthesised q.emitted) ∧
    literalUnits q.emitted.toList = literalUnits q.chars := by
  have hreads : ∀ bound rest, Reads (operand (bound + 1)) q.chars q.emitted rest := fun bound rest =>
    reads_literal q.quote_ok q.body_ok
  refine ⟨hreads, ?_, ?_, ?_⟩
  · exact parse_assigned_operand history (fresh_of_class q.quote_ok (by decide)) fun _ => hreads _ _
  · have hline : '\n' ∉ (parenthesised q.emitted).toList := by
      simpa [parenthesised, Literal.emitted] using newline_not_mem_literalText q.chars
    rw [Component.assignedPlain, Component.joinLines, replaceText,
      Text.replaceAll_of_not_mem (by decide) hline, String.ofList_toList]
  · rw [Literal.emitted, String.toList_ofList, literalUnits_literalText q h]

theorem isQuote_double : isQuote '"' = true := rfl

def brokenLines : Literal := ⟨'"', "a\tb\nc\\n\\\"\\\\\r".toList, isQuote_double, by decide⟩

theorem assigned_brokenLines :
    Component.assignedPlain (.str (parenthesised brokenLines.emitted)) = .text "(\"a\\tb\\nc\\n\\\"\\\\\\r\")" ∧
      literalUnits brokenLines.emitted.toList = some ("a\tb\nc\n\"\\\r".toList.map Char.toNat) := by
  obtain ⟨-, -, htext, hunits⟩ := assigned_literal {} brokenLines (by decide)
  exact ⟨htext.trans (congrArg Assigned.text (by decide)), hunits.trans (by decide)⟩

def continuedLine : Literal := ⟨'"', ['a', '\\', '\n', 'b'], isQuote_double, by decide⟩

/-- A line that is continued denotes a backslash and a letter once it is assigned. -/
theorem assigned_continuedLine :
    literalUnits continuedLine.chars = some ("ab".toList.map Char.toNat) ∧
      literalUnits continuedLine.emitted.toList = some ("a\\nb".toList.map Char.toNat) := by
  decide

end QmlScript.Grammar
