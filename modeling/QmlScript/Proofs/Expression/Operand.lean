import QmlScript.Proofs.Expression.Tree
import QmlScript.Proofs.Numeral

/-!
# Reading operands

A leaf, before anything that may follow it, is read as a leaf and as nothing else: each alternative
before its own misses. At a character that starts no operand all alternatives miss.
-/

namespace QmlScript.Grammar

open QmlScript.Grammar.Parser List String

variable {c c' : Cursor} {notes notes' : Notes} {s t rest : List Char} {limit : Nat} {number : Bool}
variable {x : Char} {w : List Char} {p : Char → Bool}

/-! ## Classes of characters -/

theorem isAlpha_eq (x : Char) : x.isAlpha = (x.isUpper || x.isLower) := rfl

theorem isLower_iff_toNat (x : Char) : x.isLower = true ↔ 97 ≤ x.toNat ∧ x.toNat ≤ 122 := by
  have hlower : x.isLower = (decide (97 ≤ x.val) && decide (x.val ≤ 122)) := rfl
  simp [hlower, UInt32.le_iff_toNat_le]

theorem isUpper_iff_toNat (x : Char) : x.isUpper = true ↔ 65 ≤ x.toNat ∧ x.toNat ≤ 90 := by
  have hupper : x.isUpper = decide (65 ≤ x.val ∧ x.val ≤ 90) := rfl
  simp [hupper, UInt32.le_iff_toNat_le]

/-- The classes that the first character of an operand is in. -/
structure Initial (x : Char) (digit quote path small capital : Bool) : Prop where
  number : isNumberChar x = digit
  quote : isQuote x = quote
  path : isPathChar x = path
  small : isNameStart x = small
  capital : isChoiceStart x = capital

theorem initial_of_isAlphanum :
    (x.isDigit = true → Initial x true false true false false) ∧
      (x.isLower = true → Initial x false false true true false) ∧
      (x.isUpper = true → Initial x false false true false true) := by
  rw [Number.isDigit_iff_toNat, isLower_iff_toNat, isUpper_iff_toNat]
  refine ⟨fun hcode => ?_, fun hcode => ?_, fun hcode => ?_⟩
  all_goals
    constructor <;>
      simp [isNumberChar, isQuote, isPathChar, isNameChar, isNameStart, isChoiceStart, Char.isAlphanum, isAlpha_eq,
        Number.isDigit_iff_toNat, isLower_iff_toNat, isUpper_iff_toNat, ← Bool.not_eq_true, ← Char.toNat_inj] <;>
      omega

theorem initial_of_isQuote (h : isQuote x = true) : Initial x false true false false false := by
  simp only [isQuote, Bool.or_eq_true, decide_eq_true_eq] at h
  rcases h with (rfl | rfl) | rfl <;> constructor <;> decide

/-- No reserved word stands at the head, unless it runs on. -/
def Unreserved (s : List Char) : Prop :=
  ∀ word ∈ reservedWords, ∀ t, Text.after? word.toList s = some t → t.head?.any isKeywordChar = true

def unarySigns : List String := ["!", "~", "+", "-", "typeof"]

def Unsigned (s : List Char) : Prop := ∀ w ∈ unarySigns, Text.startsWith w.toList s = false

/-- A text that starts with no gap, no reserved word and no sign. -/
structure Fresh (s : List Char) : Prop where
  solid : Solid s
  unreserved : Unreserved s
  unsigned : Unsigned s

/-- The characters that something else than an operand may start with. -/
def taken : List Char := [' ', '\t', '\n', '\r', '/', 'n', 't', 'f', 'i', '!', '~', '+', '-']

theorem unsigned_cons (hx : ∀ y ∈ ['!', '~', '+', '-'], y ≠ x)
    (htypeof : Text.startsWith "typeof".toList (x :: s) = false) : Unsigned (x :: s) := by
  intro w hw
  simp only [unarySigns, mem_cons, not_mem_nil, or_false] at hw
  rcases hw with rfl | rfl | rfl | rfl | rfl
  · exact startsWith_cons_of_ne (hx '!' (by decide))
  · exact startsWith_cons_of_ne (hx '~' (by decide))
  · exact startsWith_cons_of_ne (hx '+' (by decide))
  · exact startsWith_cons_of_ne (hx '-' (by decide))
  · exact htypeof

theorem fresh_of_class (hx : p x = true) (hp : taken.all (fun y => !p y) = true) :
    Fresh (x :: s) := by
  have hne : ∀ y ∈ taken, y ≠ x := by
    rintro y hy rfl
    exact absurd hx (by simp [eq_false_of_all hp y hy])
  refine ⟨solid_cons ?_, ?_, ?_⟩
  · simp [opensSkipped, isGap, (hne ' ' (by decide)).symm, (hne '\t' (by decide)).symm, (hne '\n' (by decide)).symm,
      (hne '\r' (by decide)).symm, (hne '/' (by decide)).symm, (hne 'i' (by decide)).symm]
  · intro word hword u hu
    simp only [reservedWords, mem_cons, not_mem_nil, or_false] at hword
    rcases hword with rfl | rfl | rfl | rfl
    · simp [Text.after?, hne 'n' (by decide)] at hu
    · simp [Text.after?, hne 't' (by decide)] at hu
    · simp [Text.after?, hne 'f' (by decide)] at hu
    · simp [Text.after?, hne 'i' (by decide)] at hu
  · have hsigns : ['!', '~', '+', '-'].all (· ∈ taken) = true := by decide
    refine unsigned_cons (fun y hy => hne y ?_) (startsWith_cons_of_ne (hne 't' (by decide)))
    exact of_decide_eq_true (all_eq_true.mp hsigns y hy)

theorem runsOn_of_firstPart {word : String} (hword : word.toList.all (fun y => isPathChar y && y != '.') = true)
    (hpath : ∀ y ∈ w, isPathChar y = true) (hne : String.ofList (w.takeWhile (· != '.')) ≠ word)
    (hrest : ∀ y ∈ rest.head?, isPathChar y = false) (ht : Text.after? word.toList (w ++ rest) = some t) :
    t.head?.any isKeywordChar = true := by
  have hletters : ∀ y ∈ word.toList, isPathChar y = true ∧ (y != '.') = true := fun y hy =>
    Bool.and_eq_true_iff.mp (all_eq_true.mp hword y hy)
  rw [after?_append_of_head (p := isPathChar) (fun y hy => (hletters y hy).1) hrest] at ht
  obtain ⟨u, hu, rfl⟩ := Option.map_eq_some_iff.mp ht
  have hchars : w = word.toList ++ u := Text.eq_append_of_after? hu
  -- behind the word the name goes on, and with no dot
  have hhead : ¬ ∀ y ∈ u.head?, (y != '.') = false := by
    intro hdot
    have hfirst : w.takeWhile (· != '.') = word.toList := by
      rw [hchars]
      exact takeWhile_append_of_head (fun y hy => (hletters y hy).2) hdot
    exact hne (by rw [hfirst, ofList_toList])
  cases u with
  | nil => exact absurd (by simp) hhead
  | cons y u =>
    have hy : isPathChar y = true := hpath y (by simp [hchars])
    have hdot : y ≠ '.' := by simpa using hhead
    simp only [isPathChar, isNameChar, Bool.or_eq_true, decide_eq_true_eq, hdot, or_false] at hy
    simpa [isKeywordChar] using Or.inl hy

theorem unsigned_of_path (hx : isPathChar x = true) (htypeof : Text.startsWith "typeof".toList (x :: w) = false)
    (hrest : ∀ y ∈ rest.head?, isPathChar y = false) : Unsigned (x :: w ++ rest) := by
  have hsigns : ∀ y ∈ ['!', '~', '+', '-'], isPathChar y = false := eq_false_of_all (by decide)
  refine unsigned_cons (fun y hy heq => ?_) ?_
  · exact absurd (heq ▸ hx) (by simp [hsigns y hy])
  · exact (startsWith_append_of_head (p := isPathChar) (all_eq_true.mp (by decide)) hrest).trans htypeof

theorem fresh_word (hx : isNameStart x = true) (hw : ∀ y ∈ w, isPathChar y = true)
    (hreserved : String.ofList ((x :: w).takeWhile (· != '.')) ∉ reservedWords)
    (htypeof : Text.startsWith "typeof".toList (x :: w) = false)
    (hrest : ∀ y ∈ rest.head?, isPathChar y = false) : Fresh (x :: w ++ rest) := by
  have hne : ∀ y : Char, isNameStart y = false → x ≠ y := by
    rintro y hy rfl
    exact absurd hx (by simp [hy])
  have hpath : isPathChar x = true := by
    simp only [isNameStart, Bool.or_eq_true, decide_eq_true_eq] at hx
    rcases hx with hx | rfl
    · exact (initial_of_isAlphanum.2.1 hx).path
    · decide
  have hunreserved : Unreserved (x :: w ++ rest) := by
    intro word hword t ht
    have hwords : ∀ word ∈ reservedWords, word.toList.all (fun y => isPathChar y && y != '.') = true := by
      decide
    refine runsOn_of_firstPart (hwords word hword) (forall_mem_cons.mpr ⟨hpath, hw⟩) ?_ hrest ht
    rintro rfl
    exact hreserved hword
  have hgap : isGap x = false := by
    simp [isGap, hne ' ' (by decide), hne '\t' (by decide), hne '\n' (by decide), hne '\r' (by decide)]
  exact ⟨solid_of_head hgap (hne '/' (by decide)) (hunreserved "import" (by decide)), hunreserved,
    unsigned_of_path hpath htypeof hrest⟩

theorem fresh_name {w : Name} (hread : (Leaf.name w).readable = true)
    (hrest : ∀ y ∈ rest.head?, isPathChar y = false) : Fresh (w.chars ++ rest) :=
  fresh_word (initial_of_isAlphanum.2.1 w.head_ok).small (all_eq_true.mp w.tail_ok)
    (by simpa [Leaf.readable, Word.chars] using hread) w.not_typeof hrest

/-! ## Alternatives that miss -/

section Missing

variable {x : Char} {expression : Parser String}

section

variable (h : c.Faces (x :: s)) (hs : Solid (x :: s))
include h hs

theorem number_misses (hx : isNumberChar x = false) : Misses Grammar.number c notes :=
  ((h.meets hs).numberText_misses hx).bind

theorem quotedLiteral_misses (hx : isQuote x = false) : Misses quotedLiteral c notes := by
  refine (h.meets hs).token_misses ?_
  simp [quotedString?, hx]

theorem call_misses (hx : isPathChar x = false) : Misses (call expression) c notes := (name_misses h hs hx).bind

theorem item_misses (hx : isNameStart x = false) : Misses (item expression) c notes := (name_misses h hs hx).bind

theorem member_misses (hx : isChoiceStart x = false) : Misses member c notes := (name_misses h hs hx).bind

theorem listing_misses (hx : '[' ≠ x) : Misses listing c notes := (mark_misses_of_ne (by rfl) h hs hx).bind

theorem reference_misses (hx : isNameStart x = false) : Misses reference c notes := (name_misses h hs hx).bind

theorem group_misses (hx : '(' ≠ x) : Misses (group expression) c notes := (mark_misses_of_ne (by rfl) h hs hx).bind

end

abbrev NoLiteral (c : Cursor) (notes : Notes) : Prop :=
  ∀ word ∈ ["null", "true", "false"], Misses (keyword word) c notes

theorem Fresh.noLiteral (hs : Fresh s) (h : c.Faces s) : NoLiteral c notes :=
  fun word hword => keyword_misses h hs.solid (hs.unreserved word (mem_append_left ["import"] hword))

theorem NoLiteral.nullWord (h : NoLiteral c notes) : Misses nullWord c notes := (h "null" (by decide)).bind

theorem NoLiteral.truthValue (h : NoLiteral c notes) : Misses truthValue c notes :=
  (h "true" (by decide)).bind.orElse (h "false" (by decide)).bind

/-- Where no word for a value and no number starts, others are tried. -/
theorem operand_of_others (hreserved : NoLiteral c notes) (hnumber : Misses Grammar.number c notes) (bound : Nat) :
    let expression := inParentheses (conditional bound)
    let others := choice [quotedLiteral, call expression, item expression, member, listing, reference, group expression]
    (∀ a c' notes', others c notes = (.done a c', notes') → operand (bound + 1) c notes = (.done a c', notes')) ∧
      (Misses others c notes → Misses (operand (bound + 1)) c notes) := by
  refine ⟨fun a c' notes' hothers => ?_, fun hothers => ?_⟩
  · refine choice_of_misses hreserved.nullWord (choice_of_misses hreserved.truthValue.bind ?_)
    exact choice_of_misses hnumber.bind (choice_of_misses hnumber.bind (choice_of_misses hnumber.bind hothers))
  · refine hreserved.nullWord.orElse (hreserved.truthValue.bind.orElse ?_)
    exact hnumber.bind.orElse (hnumber.bind.orElse (hnumber.bind.orElse hothers))

/-- Where no leaf of its own class starts, words with structure are tried. -/
theorem operand_of_later {bound : Nat} {path small capital : Bool} {a : String}
    (h : c.Faces (x :: s)) (hs : Fresh (x :: s)) (hx : Initial x false false path small capital)
    (hlater : choice [call (inParentheses (conditional bound)), item (inParentheses (conditional bound)),
      member, listing, reference, group (inParentheses (conditional bound))] c notes = (.done a c', notes')) :
    operand (bound + 1) c notes = (.done a c', notes') := by
  refine (operand_of_others (hs.noLiteral h) (number_misses h hs.solid hx.number) bound).1 _ _ _ ?_
  exact choice_of_misses (quotedLiteral_misses h hs.solid hx.quote) hlater

theorem operand_misses {bound : Nat} (h : c.Faces (x :: s)) (hs : Fresh (x :: s))
    (hx : Initial x false false false false false) (hlist : '[' ≠ x) (hgroup : '(' ≠ x) :
    Misses (operand bound) c notes := by
  cases bound with
  | zero => exact ⟨_, _, rfl⟩
  | succ bound =>
    refine (operand_of_others (hs.noLiteral h) (number_misses h hs.solid hx.number) bound).2 (misses_choice ?_)
    simp only [forall_mem_cons, not_mem_nil, false_imp_iff, implies_true, and_true]
    exact ⟨quotedLiteral_misses h hs.solid hx.quote, call_misses h hs.solid hx.path,
      item_misses h hs.solid hx.small, member_misses h hs.solid hx.capital,
      listing_misses h hs.solid hlist, reference_misses h hs.solid hx.small,
      group_misses h hs.solid hgroup⟩

end Missing

/-! ## What stands behind an operand -/

def closers : List Char :=
  [';', ')', '?', ':', '*', '/', '%', '+', '-', '<', '>', 'i', '=', '!', '&', '^', '|']

theorem BinaryOp.text_head (op : BinaryOp) : ∃ x w, op.text.toList = x :: w ∧ x ∈ closers ∧ (x = '%' → op = .rem) := by
  cases op <;> exact ⟨_, _, rfl, by decide, by decide⟩

theorem BinaryOp.solid (op : BinaryOp) (s : List Char) : Solid (op.text.toList ++ ' ' :: s) := by
  cases op <;> constructor <;>
    simp [BinaryOp.text, blockComment?, lineComment?, Text.after?, isGap]

theorem Closes.exists_head (h : Closes limit number rest) :
    ∃ gap x s, rest = gap ++ x :: s ∧ (∀ y ∈ gap, isGap y = true) ∧ Solid (x :: s) ∧ x ∈ closers ∧
      (number = true → x ≠ '%') := by
  cases h with
  | @mark x s hx =>
    refine ⟨[], x, s, rfl, by simp, ?_⟩
    rcases hx with rfl | rfl <;>
      exact ⟨solid_cons rfl, by decide, fun _ => by decide⟩
  | @branch x s hx =>
    refine ⟨[' '], x, s, rfl, all_eq_true.mp (by decide), ?_⟩
    rcases hx with rfl | rfl <;>
      exact ⟨solid_cons rfl, by decide, fun _ => by decide⟩
  | @operator op s hlevel hrem =>
    obtain ⟨x, w, hw, hx, hpercent⟩ := op.text_head
    have hsolid := op.solid s
    rw [hw] at hsolid
    refine ⟨[' '], x, w ++ ' ' :: s, by simp [hw], all_eq_true.mp (by decide), hsolid, hx, ?_⟩
    rintro hnumber rfl
    simp [hpercent rfl, hnumber] at hrem

/-- What stands directly behind an operand, and is no part of it. -/
structure Borders (number : Bool) (rest : List Char) : Prop where
  head_mem : ∀ y ∈ rest.head?, y ∈ [' ', ';', ')', ',']
  exists_head : ∃ gap x s, rest = gap ++ x :: s ∧ (∀ y ∈ gap, isGap y = true) ∧ Solid (x :: s) ∧
    x ∈ ',' :: closers ∧ (number = true → x ≠ '%')

theorem Closes.head_mem (h : Closes limit number rest) : ∀ y ∈ rest.head?, y ∈ [' ', ';', ')'] := by
  cases h with
  | mark hx => rcases hx with rfl | rfl <;> simp
  | branch hx | operator op hlevel hrem => simp

theorem Closes.borders (h : Closes limit number rest) : Borders number rest := by
  obtain ⟨gap, x, s, hrest, hgap, hs, hx, hpercent⟩ := h.exists_head
  refine ⟨fun y hy => ?_, gap, x, s, hrest, hgap, hs, mem_cons_of_mem _ hx, hpercent⟩
  exact mem_append_left [','] (h.head_mem y hy)

theorem Borders.head_not (h : Borders number rest)
    (hp : [' ', ';', ')', ','].all (fun y => !p y) = true) : ∀ y ∈ rest.head?, p y = false :=
  fun y hy => eq_false_of_all hp y (h.head_mem y hy)

theorem Borders.mark_misses {word : String} (h : Borders number rest) (hc : c.At rest) (hword : word.toList = x :: w)
    (hx : x ∉ ',' :: closers ∨ x = '%' ∧ number = true) :
    Misses (Grammar.mark word) c notes := by
  obtain ⟨gap, y, s, rfl, hgap, hs, hy, hpercent⟩ := h.exists_head
  refine mark_misses_of_ne hword ⟨gap, hgap, hc⟩ hs ?_
  rintro rfl
  rcases hx with hx | ⟨rfl, hnumber⟩
  · exact hx hy
  · exact hpercent hnumber rfl

/-! ## Words before what follows them -/

section Words

variable {bound : Nat}
variable {value : Json} {quote : Char} {body : List Char}

theorem reads_null (h : Borders number rest) : Reads (operand (bound + 1)) "null".toList "null" rest := by
  intro c notes hf hclear
  have hs : Solid ("null".toList ++ rest) := solid_cons rfl
  have hword : keyword "null" c notes = (.done () (c.reach rest), notes) :=
    keyword_done rfl hf hs hclear (h.head_not (by decide))
  rw [operand]
  refine choice_done ?_
  rw [nullWord, bind_done hword]
  rfl

/-- The first alternative comes to the words for truth values. -/
theorem truthWord_done (notes : Notes) (b : Bool) (hf : c.Faces ((if b then "true" else "false").toList ++ rest))
    (hclear : (c.reach ((if b then "true" else "false").toList ++ rest)).Clear)
    (hrest : ∀ y ∈ rest.head?, isKeywordChar y = false) :
    Misses nullWord c notes ∧ truthValue c notes = (.done b (c.reach rest), notes) := by
  cases b with
  | true =>
    have hs : Solid ("true".toList ++ rest) := solid_cons rfl
    have hword : keyword "true" c notes = (.done () (c.reach rest), notes) :=
      keyword_done rfl hf hs hclear hrest
    exact ⟨(keyword_misses_of_ne rfl hf hs (by decide)).bind, orElse_done (bind_done hword)⟩
  | false =>
    have hs : Solid ("false".toList ++ rest) := solid_cons rfl
    have htrue : Misses (keyword "true") c notes := keyword_misses_of_ne rfl hf hs (by decide)
    have hword : keyword "false" c notes = (.done () (c.reach rest), notes) :=
      keyword_done rfl hf hs hclear hrest
    exact ⟨(keyword_misses_of_ne rfl hf hs (by decide)).bind, orElse_of_misses htrue.bind (bind_done hword)⟩

theorem reads_truth (h : Borders number rest) (b : Bool) :
    Reads (operand (bound + 1)) (if b then "true" else "false").toList (if b then "true" else "false") rest := by
  intro c notes hf hclear
  obtain ⟨hnull, hvalue⟩ := truthWord_done notes b hf hclear (h.head_not (by decide))
  rw [operand]
  refine choice_of_misses hnull (choice_done ?_)
  rw [truthText, bind_done hvalue]
  rfl

theorem digits_eq_cons (n : Nat) : ∃ x s, Nat.toDigits 10 n = x :: s ∧ x.isDigit = true := by
  have hdigits := Number.isDigit_of_mem_digits n
  cases hs : Nat.toDigits 10 n with
  | nil => exact absurd hs Nat.toDigits_ne_nil
  | cons x s => exact ⟨x, s, rfl, hdigits x (by simp [hs])⟩

theorem fresh_digits (n : Nat) : Fresh (Nat.toDigits 10 n ++ rest) := by
  obtain ⟨x, s, hs, hx⟩ := digits_eq_cons n
  rw [hs]
  exact fresh_of_class hx (by decide)

/-- The notes with a number that cannot be read, if it is the first. -/
def Notes.blamed (notes : Notes) (fault : Number.Fault) : Notes :=
  { notes with fault := notes.fault <|> some fault }

theorem Notes.blamed_blamed (notes : Notes) (fault : Number.Fault) :
    (notes.blamed fault).blamed fault = notes.blamed fault := by
  cases h : notes.fault <;> simp [Notes.blamed, h]

abbrev EndsNumber (rest : List Char) : Prop := ∀ y ∈ rest.head?, isNumberChar y = false ∧ y ≠ 'x'

theorem Borders.ends_number (h : Borders number rest) : EndsNumber rest :=
  fun y hy => ⟨h.head_not (by decide) y hy, fun hx => absurd (h.head_mem y hy) (by rw [hx]; decide)⟩

theorem number_digits (n : Nat) (hrest : EndsNumber rest) (hf : c.Faces (Nat.toDigits 10 n ++ rest)) :
    Grammar.number c notes =
      match numberValue n.repr with
      | .ok value => (.done value (c.reach rest), notes)
      | .error fault => (.done .null (c.reach rest), notes.blamed fault) := by
  have hbase : Text.startsWith ['0', 'x'] (Nat.toDigits 10 n ++ rest) = false :=
    startsWith_base_digits n fun y hy => (hrest y hy).2
  have hnumber : ∀ y ∈ Nat.toDigits 10 n, isNumberChar y = true := by
    intro y hy
    simp [isNumberChar, Number.isDigit_of_mem_digits n y hy]
  have htext : numberText c notes = (.done n.repr (c.reach rest), notes) := by
    have hlen : (Nat.toDigits 10 n).length ≠ 0 := by simp
    rw [Nat.repr_eq_ofList_toDigits, numberText, skip_eq hf (fresh_digits n).solid]
    simp only [hf.reach_head.ahead, hbase, Bool.false_eq_true, if_false, drop_zero, Nat.zero_add,
      takeWhile_append_of_head hnumber fun y hy => (hrest y hy).1, if_neg hlen, take_left', hf.advance]
  exact bind_done htext

theorem written_done {text : Json → String} (h : value.isWritable = true) :
    written text value c notes = (.done (text value) c, notes) := by
  rw [written, if_pos h]

/-- A number before what closes an operand is written; what is noted of it is noted once, although each alternative
reads it. -/
theorem operand_of_number (bound : Nat) (hs : Fresh s) (h : Borders true rest) (hf : c.Faces s)
    (hat : (c.reach rest).At rest) (hnumber : Grammar.number c notes = (.done value (c.reach rest), notes'))
    (hagain : Grammar.number c notes' = (.done value (c.reach rest), notes')) :
    operand (bound + 1) c notes = written Json.display value (c.reach rest) notes' := by
  obtain ⟨offset, lack, hpercent⟩ : Misses (mark "%") (c.reach rest) notes' := h.mark_misses hat rfl (by decide)
  have hscale : Misses (mark "s") (c.reach rest) notes' := h.mark_misses hat rfl (by decide)
  have hpercentage : percentage c notes = (.miss offset lack, notes') := by
    rw [percentage, bind_done hnumber, Parser.bind, hpercent]
  rw [operand]
  refine choice_of_misses (hs.noLiteral hf).nullWord (choice_of_misses (hs.noLiteral hf).truthValue.bind ?_)
  refine choice_tail hpercentage ?_ rfl
  refine choice_of_misses (misses_bind_of_done hagain hscale.bind) ?_
  exact choice_done (bind_done hagain)

theorem reads_number {n : Nat} (hread : (Leaf.number n).readable = true) (h : Borders true rest) :
    Reads (operand (bound + 1)) n.repr.toList n.repr rest := by
  intro c notes hf hclear
  rw [Nat.toList_repr] at hf
  have hlt : n < 10 ^ Number.mostDigits := by simpa [Leaf.readable] using hread
  have hnumber : Grammar.number c notes = (.done (.int n) (c.reach rest), notes) := by
    rw [number_digits n h.ends_number hf, numberValue_repr, if_pos hlt]
  have hwritable : (Json.int n).isWritable = true := Json.isWritable_int.mpr (by simpa using hlt)
  rw [operand_of_number bound (fresh_digits n) h hf hf.reach hnumber hnumber, written_done hwritable]
  rfl

theorem quotedTail?_append (hquote : quote ≠ '\\') (h : isBody quote body = true) :
    quotedTail? quote (body ++ quote :: rest) = some (body.length + 1) := by
  fun_induction isBody quote body with
  | case1 => simp [quotedTail?, hquote]
  | case2 => simp at h
  | case3 y s ih => simp [quotedTail?, ih h]
  | case4 x s hend hescape ih =>
    simp only [Bool.and_eq_true, bne_iff_ne] at h
    have hx : x ≠ '\\' := by
      rintro rfl
      cases s with
      | nil => exact hend rfl rfl
      | cons y s => exact hescape y s rfl rfl
    simp [quotedTail?, hx, h.1, ih h.2]

theorem literalChar_of_not_moves (h : movesCursor x = false) : literalChar x = [x] := by
  have hne : ∀ y : Char, movesCursor y = true → x ≠ y := by
    rintro y hy rfl
    exact absurd hy (by simp [h])
  simp only [literalChar, if_neg (hne _ (by decide : movesCursor '\t' = true)),
    if_neg (hne _ (by decide : movesCursor '\r' = true)), if_neg (hne _ (by decide : movesCursor '\n' = true)),
    if_neg (hne _ (by decide : movesCursor '\x0b' = true)), if_neg (hne _ (by decide : movesCursor '\x0c' = true))]

theorem literalText_of_plain (h : ∀ x ∈ s, movesCursor x = false) : literalText s = s := by
  have hchars : s.flatMap literalChar = s.flatMap fun x => [x] :=
    flatMap_congr fun x hx => literalChar_of_not_moves (h x hx)
  rw [literalText, hchars, flatMap_singleton']

theorem Quoted.literalText_chars (q : Quoted) : literalText q.chars = q.chars := by
  have hquote : movesCursor q.quote = false := by
    have := q.quote_ok
    simp only [isQuote, Bool.or_eq_true, decide_eq_true_eq] at this
    rcases this with (hq | hq) | hq <;> rw [hq] <;> decide
  have hplain := all_eq_true.mp q.plain
  refine literalText_of_plain fun x hx => ?_
  simp only [Quoted.chars, mem_cons, mem_append, not_mem_nil, or_false] at hx
  rcases hx with rfl | hx | rfl
  · exact hquote
  · simpa using hplain x hx
  · exact hquote

theorem quotedString?_append (hquote : isQuote quote = true) (hbody : isBody quote body = true) (rest : List Char) :
    quotedString? (quote :: (body ++ [quote]) ++ rest) = some (quote :: (body ++ [quote])).length := by
  have hne : quote ≠ '\\' := by
    rintro rfl
    exact absurd hquote (by decide)
  have htail : quotedTail? quote (body ++ quote :: rest) = some (body.length + 1) :=
    quotedTail?_append hne hbody
  have hchars : quote :: (body ++ [quote]) ++ rest = quote :: (body ++ quote :: rest) := by simp
  rw [hchars, quotedString?, if_pos hquote, htail]
  simp

theorem Quoted.quotedString?_chars (q : Quoted) (rest : List Char) :
    quotedString? (q.chars ++ rest) = some q.chars.length := quotedString?_append q.quote_ok q.body_ok rest

theorem Quoted.fresh (q : Quoted) : Fresh (q.chars ++ rest) := fresh_of_class q.quote_ok (by decide)

theorem reads_literal (hquote : isQuote quote = true) (hbody : isBody quote body = true) :
    Reads (operand (bound + 1)) (quote :: (body ++ [quote]))
      (String.ofList (literalText (quote :: (body ++ [quote])))) rest := by
  intro c notes hf hclear
  have hx := initial_of_isQuote hquote
  have hs : Fresh (quote :: (body ++ [quote]) ++ rest) := fresh_of_class hquote (by decide)
  have hquoted : quotedLiteral c notes =
      (.done (String.ofList (literalText (quote :: (body ++ [quote])))) (c.reach rest), notes) := by
    refine (hf.meets hs.solid).token_done ?_
    rw [quotedString?_append hquote hbody, Option.map_some, take_left']
    rfl
  exact (operand_of_others (hs.noLiteral hf) (number_misses hf hs.solid hx.number) bound).1 _ _ _ (choice_done hquoted)

theorem reads_quoted (q : Quoted) : Reads (operand (bound + 1)) q.chars (String.ofList q.chars) rest := by
  have hread : Reads (operand (bound + 1)) q.chars (String.ofList (literalText q.chars)) rest :=
    reads_literal q.quote_ok q.body_ok
  rwa [q.literalText_chars] at hread

theorem isPathChar_of_isAlphanum (h : x.isAlphanum = true) : isPathChar x = true := by
  simp [isPathChar, isNameChar, h]

theorem reads_member (type value : Word Char.isUpper Char.isAlphanum) (h : Borders number rest) :
    Reads (operand (bound + 1)) (type.chars ++ '.' :: value.chars)
      (String.ofList type.chars ++ "." ++ String.ofList value.chars) rest := by
  intro c notes hf hclear
  have hx := initial_of_isAlphanum.2.2 type.head_ok
  have hy := initial_of_isAlphanum.2.2 value.head_ok
  have htype := all_eq_true.mp type.tail_ok
  have hvalue := all_eq_true.mp value.tail_ok
  have hs : Fresh ((type.chars ++ '.' :: value.chars) ++ rest) := fresh_of_class type.head_ok (by decide)
  have hpath : ∀ y ∈ type.tail ++ '.' :: value.chars, isPathChar y = true := by
    intro y hmem
    simp only [Word.chars, mem_append, mem_cons] at hmem
    rcases hmem with hmem | rfl | rfl | hmem
    · exact isPathChar_of_isAlphanum (htype y hmem)
    · decide
    · exact hy.path
    · exact isPathChar_of_isAlphanum (hvalue y hmem)
  have hcall : Misses (call (inParentheses (conditional bound))) c notes := by
    have hword : functionName c notes = (.done _ (c.reach rest), notes) :=
      (hf.meets hs.solid).name_done hx.path hpath (h.head_not (by decide))
    exact misses_bind_of_done hword (h.mark_misses (x := '(') hf.reach rfl (.inl (by decide))).bind
  refine operand_of_later hf hs hx (choice_of_misses hcall ?_)
  refine choice_of_misses (item_misses hf hs.solid hx.small) (choice_done ?_)
  have hfirst : Reads choiceName type.chars (String.ofList type.chars) (['.'] ++ value.chars ++ rest) := fun _ _ hf _ =>
    (hf.meets (fresh_of_class type.head_ok (by decide)).solid).name_done hx.capital htype (by simp)
  have hsecond : ReadsAt choiceName value.chars (String.ofList value.chars) rest := fun _ _ hc =>
    (hc.faces.meets (fresh_of_class value.head_ok (by decide)).solid).name_done hy.capital hvalue
      (h.head_not (by decide))
  have hdot : ReadsAt (mark ".") ['.'] () (value.chars ++ rest) := readsAt_mark rfl (solid_cons rfl)
  exact hfirst.bind (hdot.bind (hsecond.still fun _ _ => rfl)) c notes hf hclear

/-- A word is no literal, call or item, but a member or a reference. -/
theorem operand_word (bound : Nat) (hx : x.isAlpha = true ∨ x = '_')
    (hw : ∀ y ∈ w, isPathChar y = true) (hrest : ∀ y ∈ rest.head?, isPathChar y = false) (h : c.Meets (x :: w ++ rest))
    (hreserved : NoLiteral c notes) (hcall : Misses (mark "(") (c.reach rest) notes)
    (hitem : Misses (mark "[") (c.reach rest) notes) :
    (∀ a c', choice [member, listing, reference, group (inParentheses (conditional bound))] c notes =
        (.done a c', notes) → operand (bound + 1) c notes = (.done a c', notes)) ∧
      (Misses (choice [member, listing, reference, group (inParentheses (conditional bound))]) c notes →
        Misses (operand (bound + 1)) c notes) := by
  have hclass : isNumberChar x = false ∧ isQuote x = false ∧ isPathChar x = true := by
    rcases hx with hx | rfl
    · rcases Bool.or_eq_true_iff.mp hx with hx | hx
      · have h := initial_of_isAlphanum.2.2 hx
        exact ⟨h.number, h.quote, h.path⟩
      · have h := initial_of_isAlphanum.2.1 hx
        exact ⟨h.number, h.quote, h.path⟩
    · decide
  obtain ⟨hnumberChar, hquote, hpath⟩ := hclass
  have hothers := operand_of_others hreserved (h.numberText_misses hnumberChar).bind bound
  have hquoted : Misses quotedLiteral c notes := h.token_misses (by simp [quotedString?, hquote])
  have hcalls : Misses (call (inParentheses (conditional bound))) c notes := by
    have hword : functionName c notes = (.done _ (c.reach rest), notes) := h.name_done hpath hw hrest
    exact misses_bind_of_done hword hcall.bind
  have hitems : Misses (item (inParentheses (conditional bound))) c notes := by
    cases hsmall : isNameStart x with
    | true =>
      have hword : pathName c notes = (.done _ (c.reach rest), notes) := h.name_done hsmall hw hrest
      exact misses_bind_of_done hword hitem.bind
    | false => exact (h.name_misses (s := w ++ rest) hsmall).bind
  refine ⟨fun a c' hlater => hothers.1 _ _ _ ?_, fun hlater => hothers.2 ?_⟩
  · exact choice_of_misses hquoted (choice_of_misses hcalls (choice_of_misses hitems hlater))
  · exact hquoted.orElse (hcalls.orElse (hitems.orElse hlater))

/-- A word is read as a reference, whatever stands in front of it. -/
theorem operand_reference (hx : isNameStart x = true) (hw : ∀ y ∈ w, isPathChar y = true)
    (hs : Fresh (x :: w ++ rest)) (h : Borders number rest) (hf : c.Faces (x :: w ++ rest))
    (hmember : Misses member c notes) :
    operand (bound + 1) c notes = (.done (referenceText (String.ofList (x :: w))) (c.reach rest), notes) := by
  have hrest : ∀ y ∈ rest.head?, isPathChar y = false := h.head_not (by decide)
  have hstart : x.isAlpha = true ∨ x = '_' := by
    simp only [isNameStart, Bool.or_eq_true, decide_eq_true_eq] at hx
    exact hx.imp_left fun hlower => by simp [isAlpha_eq, hlower]
  have hlist : '[' ≠ x := by
    rintro rfl
    exact absurd hx (by decide)
  have hname : pathName c notes = (.done (String.ofList (x :: w)) (c.reach rest), notes) :=
    (hf.meets hs.solid).name_done hx hw hrest
  refine (operand_word bound hstart hw hrest (hf.meets hs.solid) (hs.noLiteral hf)
    (h.mark_misses (x := '(') hf.reach rfl (.inl (by decide)))
    (h.mark_misses (x := '[') hf.reach rfl (.inl (by decide)))).1 _ _ ?_
  refine choice_of_misses hmember ?_
  refine choice_of_misses (listing_misses hf hs.solid hlist) (choice_done ?_)
  rw [reference, bind_done hname]
  rfl

theorem reads_reference (hx : isNameStart x = true) (hw : ∀ y ∈ w, isPathChar y = true)
    (hs : Fresh (x :: w ++ rest)) (h : Borders number rest)
    (hmember : ∀ c notes, c.Faces (x :: w ++ rest) → Misses member c notes) :
    Reads (operand (bound + 1)) (x :: w) (referenceText (String.ofList (x :: w))) rest :=
  fun c notes hf _ => operand_reference hx hw hs h hf (hmember c notes hf)

theorem reads_name {w : Name} (hread : (Leaf.name w).readable = true) (h : Borders number rest) :
    Reads (operand (bound + 1)) w.chars w.reference rest := by
  have hx := initial_of_isAlphanum.2.1 w.head_ok
  have hs : Fresh (w.chars ++ rest) := fresh_name hread (h.head_not (by decide))
  exact reads_reference hx.small (all_eq_true.mp w.tail_ok) hs h fun c notes hf => member_misses hf hs.solid hx.capital

end Words

theorem reads_leaf {a : Leaf} (hread : a.readable = true) (bound : Nat)
    (h : Closes limit (Expr.leaf a).endsInNumber rest) :
    Reads (operand (bound + 1)) (a.text Name.plain).toList (a.text Name.reference) rest := by
  cases a with
  | number n => exact reads_number hread h.borders
  | truth b => exact reads_truth h.borders b
  | null => exact reads_null h.borders
  | quoted q =>
    rw [Leaf.text, toList_ofList]
    exact reads_quoted q
  | member type value =>
    simpa [Leaf.text] using reads_member type value h.borders
  | name w =>
    simpa [Leaf.text, Name.plain] using reads_name hread h.borders

theorem Leaf.starts {a : Leaf} (hread : a.readable = true) (h : Closes limit number rest) :
    Solid ((a.text Name.plain).toList ++ rest) ∧ Unsigned ((a.text Name.plain).toList ++ rest) := by
  cases a with
  | number n =>
    rw [Leaf.text, Nat.toList_repr]
    exact ⟨(fresh_digits n).solid, (fresh_digits n).unsigned⟩
  | truth b =>
    refine ⟨?_, ?_⟩
    · cases b <;> exact solid_cons rfl
    · cases b <;> simp [Leaf.text, Unsigned, unarySigns, Text.startsWith, Text.after?]
  | null =>
    refine ⟨solid_cons rfl, ?_⟩
    simp [Leaf.text, Unsigned, unarySigns, Text.startsWith, Text.after?]
  | quoted q =>
    rw [Leaf.text, toList_ofList]
    exact ⟨q.fresh.solid, q.fresh.unsigned⟩
  | member type value =>
    have hs : Fresh (type.chars ++ ('.' :: value.chars ++ rest)) := fresh_of_class type.head_ok (by decide)
    simpa [Leaf.text] using And.intro hs.solid hs.unsigned
  | name w =>
    have hs : Fresh (w.chars ++ rest) := fresh_name hread (h.borders.head_not (by decide))
    rw [Leaf.text, Name.plain, toList_ofList]
    exact ⟨hs.solid, hs.unsigned⟩

end QmlScript.Grammar
