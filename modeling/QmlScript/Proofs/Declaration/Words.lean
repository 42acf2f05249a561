import QmlScript.Proofs.Declaration.Taking
import QmlScript.Proofs.DottedNames

/-!
# Names and marks

The names of declarations are words of the classes that the grammar has for them, and none of their
parts between dots is a keyword. So a name is never taken for a keyword, and it is read to its end
wherever a character of no name follows it.
-/

namespace QmlScript.Grammar

open QmlScript.Grammar.Parser List

variable {s t u rest : List Char} {first other : Char → Bool}
variable {x : Char} {word : String}

def keywords : List String :=
  ["null", "true", "false", "signal", "id", "property", "const", "alias", "enum", "async", "function",
    "Behavior", "on", "ListElement", "import"]

def isFree (s : List Char) : Bool :=
  (Text.splitOn '.' s).all fun part => !keywords.contains (String.ofList part)

structure Ident (first other : Char → Bool) extends Word first other where
  free : isFree (head :: tail) = true
  deriving DecidableEq

def Ident.text (w : Ident first other) : String := String.ofList w.chars

/-- Classes of characters of names: letters and underscores first, then also digits and dots. -/
class Spelling (first other : Char → Bool) : Prop where
  first_ok : ∀ x, first x = true → x.isAlpha = true ∨ x = '_'
  other_ok : ∀ x, other x = true → isPathChar x = true

abbrev isTypeStart (x : Char) : Bool := x.isAlpha || x = '_'

abbrev PlainName := Ident isNameStart isNameChar
abbrev PathName := Ident isNameStart isPathChar
abbrev ChoiceName := Ident isChoiceStart Char.isAlphanum
abbrev PropertyType := Ident Char.isAlpha Char.isAlphanum

def lastPart (s : List Char) : List Char := (Text.splitOn '.' s).getLastD []

/-- The type of a component: its last part starts with no small letter. -/
structure TypeName extends Ident isTypeStart isPathChar where
  capital : (lastPart (head :: tail)).head?.any (fun x => !Text.isSmall x) = true
  deriving DecidableEq

/-- The name of an object: its last part starts with a small letter. -/
structure ScopeName extends Ident isNameStart isPathChar where
  small : (lastPart (head :: tail)).head?.any Text.isSmall = true
  deriving DecidableEq

theorem isAlpha_of_isLower (h : x.isLower = true) : x.isAlpha = true := by
  simp [isAlpha_eq, h]

theorem isAlpha_of_isUpper (h : x.isUpper = true) : x.isAlpha = true := by
  simp [isAlpha_eq, h]

theorem isPathChar_of_isNameChar (h : isNameChar x = true) : isPathChar x = true := by
  simp [isPathChar, h]

theorem alpha_of_isNameStart (h : isNameStart x = true) : x.isAlpha = true ∨ x = '_' := by
  simp only [isNameStart, Bool.or_eq_true, decide_eq_true_eq] at h
  exact h.imp_left isAlpha_of_isLower

instance : Spelling isNameStart isNameChar where
  first_ok := fun _ => alpha_of_isNameStart
  other_ok := fun _ => isPathChar_of_isNameChar

instance : Spelling isNameStart isPathChar where
  first_ok := fun _ => alpha_of_isNameStart
  other_ok := fun _ h => h

instance : Spelling isChoiceStart Char.isAlphanum where
  first_ok := fun x h => by
    simp only [isChoiceStart, Bool.or_eq_true, decide_eq_true_eq] at h
    exact h.imp_left isAlpha_of_isUpper
  other_ok := fun _ => isPathChar_of_isAlphanum

instance : Spelling Char.isAlpha Char.isAlphanum where
  first_ok := fun _ => .inl
  other_ok := fun _ => isPathChar_of_isAlphanum

instance : Spelling isTypeStart isPathChar where
  first_ok := fun _ h => by simpa using h
  other_ok := fun _ h => h

def PlainName.path (w : PlainName) : PathName where
  head := w.head
  tail := w.tail
  head_ok := w.head_ok
  tail_ok := all_eq_true.mpr fun x hx => isPathChar_of_isNameChar (all_eq_true.mp w.tail_ok x hx)
  free := w.free

def Apart (rest : List Char) : Prop := ∀ x ∈ rest.head?, isPathChar x = false

theorem apart_cons (h : isPathChar x = false) : Apart (x :: rest) := by
  simpa [Apart] using h

theorem isPathChar_of_alpha (h : x.isAlpha = true ∨ x = '_') : isPathChar x = true := by
  rcases h with h | rfl
  · exact isPathChar_of_isAlphanum (by simp [Char.isAlphanum, h])
  · decide

theorem Word.isPathChar_of_mem [Spelling first other] (w : Word first other) : ∀ x ∈ w.chars, isPathChar x = true := by
  intro x hx
  rcases mem_cons.mp hx with rfl | hx
  · exact isPathChar_of_alpha (Spelling.first_ok other w.head w.head_ok)
  · exact Spelling.other_ok first x (all_eq_true.mp w.tail_ok x hx)

theorem runsOn_of_isFree (hpath : ∀ x ∈ s, isPathChar x = true) (hfree : isFree s = true) (h : Apart rest)
    (hword : word ∈ keywords) (ht : Text.after? word.toList (s ++ rest) = some t) :
    t.head?.any isKeywordChar = true := by
  have hwords : ∀ word ∈ keywords, word.toList.all (fun y => isPathChar y && y != '.') = true := by decide
  refine runsOn_of_firstPart (hwords word hword) hpath ?_ h ht
  rintro rfl
  obtain ⟨parts, hparts⟩ := Text.exists_splitOn '.' s
  simp only [isFree, hparts, all_cons, Bool.and_eq_true, Bool.not_eq_true', ← Bool.not_eq_true,
    contains_iff_mem] at hfree
  exact hfree.1 hword

theorem not_gap_of_class {p : Char → Bool} (hx : p x = true) (hp : [' ', '\t', '\n', '\r'].all (fun y => !p y) = true) :
    isGap x = false := by
  have hblank : ∀ y ∈ [' ', '\t', '\n', '\r'], x ≠ y := by
    rintro y hy rfl
    exact absurd hx (by simp [eq_false_of_all hp x hy])
  simp [isGap, hblank]

theorem solid_of_isFree (hne : s ≠ []) (hpath : ∀ x ∈ s, isPathChar x = true) (hfree : isFree s = true)
    (h : Apart rest) : Solid (s ++ rest) := by
  cases s with
  | nil => exact absurd rfl hne
  | cons x s =>
    have hx : isPathChar x = true := hpath x (by simp)
    have hslash : x ≠ '/' := by
      rintro rfl
      exact absurd hx (by decide)
    exact solid_of_head (not_gap_of_class hx (by decide)) hslash fun t ht =>
      runsOn_of_isFree hpath hfree h (by decide) ht

theorem Ident.solid [Spelling first other] (w : Ident first other) (h : Apart rest) : Solid (w.chars ++ rest) :=
  solid_of_isFree (by simp [Word.chars]) w.isPathChar_of_mem w.free h

theorem Ident.keyword_fails [Spelling first other] (w : Ident first other) (h : Apart rest) (hword : word ∈ keywords) :
    Fails (keyword word) (w.chars ++ rest) :=
  fails_of_misses fun _ _ hf =>
    keyword_misses hf (w.solid h) fun _ ht => runsOn_of_isFree w.isPathChar_of_mem w.free h hword ht

theorem Ident.takes_as [Spelling first other] (w : Ident first other) (h : Apart rest) {lack : Lack}
    {first' other' : Char → Bool} (hhead : first' w.head = true) (htail : ∀ x ∈ w.tail, other' x = true)
    (hother : ∀ x, other' x = true → isPathChar x = true) :
    Takes (name lack first' other') w.chars (· = w.text) rest := by
  refine takes_of_done fun c notes hf => (hf.meets (w.solid h)).name_done hhead htail fun x hx => ?_
  cases hx' : other' x with
  | false => rfl
  | true => exact absurd (hother x hx') (by simp [h x hx])

theorem Ident.takes [Spelling first other] (w : Ident first other) (h : Apart rest) {lack : Lack} :
    Takes (name lack first other) w.chars (· = w.text) rest :=
  w.takes_as h w.head_ok (all_eq_true.mp w.tail_ok) (Spelling.other_ok first)

def isMark (x : Char) : Bool :=
  x = ':' || x = ';' || x = ',' || x = '(' || x = ')' || x = '\x7b' || x = '\x7d'

theorem solid_mark (h : isMark x = true) : Solid (x :: s) := by
  simp only [isMark, Bool.or_eq_true, decide_eq_true_eq] at h
  rcases h with (((((rfl | rfl) | rfl) | rfl) | rfl) | rfl) | rfl <;> exact solid_cons rfl

theorem takes_mark (hword : word.toList = [x]) (hx : isMark x = true) : Takes (mark word) [x] (fun _ => True) rest :=
  (takes_of_done fun _ _ hf => mark_done hword hf (solid_mark hx)).mono fun _ _ => trivial

theorem fails_mark {y : Char} (hword : word.toList = [x]) (hy : isMark y = true) (hne : x ≠ y) :
    Fails (mark word) (y :: s) := fails_of_misses fun _ _ hf => mark_misses_of_ne hword hf (solid_mark hy) hne

theorem takes_keyword {w : List Char} (hword : word.toList = x :: w) (hsolid : Solid (x :: w ++ rest))
    (hrest : ∀ y ∈ rest.head?, isKeywordChar y = false) :
    Takes (keyword word) (' ' :: x :: w) (fun _ => True) rest := by
  intro c notes hf hfault
  have hf' : c.Faces (x :: w ++ rest) := hf.behind_blank
  have hclear : (c.reach (x :: w ++ rest)).Clear := hf.clear (by decide)
  exact ⟨(), c.reach rest, notes, keyword_done hword hf' hsolid hclear hrest, trivial, hf'.reach.faces, hfault⟩

end QmlScript.Grammar
