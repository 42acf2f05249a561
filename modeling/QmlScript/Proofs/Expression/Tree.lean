import Mathlib.Algebra.Group.Nat.Defs
import QmlScript.Grammar.Expression

/-!
# Expression trees and their texts

An expression as a tree, and its text: one blank between any two words, and parentheses exactly where
precedence or associativity asks for them. Leaves and unary operators have *rank* zero, the levels of binary
operators the ranks from one to ten, and the conditional rank eleven. How names are spelt is a parameter of
the text.
-/

namespace QmlScript.Grammar

open List

variable {number : Bool} {s : List Char} {spell : Name → String}

/-- A word of given classes of first and other characters. -/
structure Word (first other : Char → Bool) where
  head : Char
  tail : List Char
  head_ok : first head = true
  tail_ok : tail.all other = true
  deriving DecidableEq

def Word.chars {first other : Char → Bool} (w : Word first other) : List Char := w.head :: w.tail

/-- A name with a small initial, maybe with dots, that starts like no `typeof`. -/
structure Name extends Word Char.isLower isPathChar where
  not_typeof : Text.startsWith "typeof".toList (head :: tail) = false
  deriving DecidableEq

/-- What may stand between quotes: a backslash takes the next character along, and no quote is left. -/
def isBody (quote : Char) : List Char → Bool
  | [] => true
  | '\\' :: [] => false
  | '\\' :: _ :: s => isBody quote s
  | x :: s => x != quote && isBody quote s

def movesCursor (x : Char) : Bool := 9 ≤ x.toNat && x.toNat ≤ 13

structure Quoted where
  quote : Char
  body : List Char
  quote_ok : isQuote quote = true
  body_ok : isBody quote body = true
  plain : body.all (fun x => !movesCursor x) = true
  deriving DecidableEq

def Quoted.chars (q : Quoted) : List Char := q.quote :: (q.body ++ [q.quote])

inductive Leaf where
  | number (n : Nat)
  | truth (b : Bool)
  | null
  | quoted (q : Quoted)
  | member (type value : Word Char.isUpper Char.isAlphanum)
  | name (w : Name)
  deriving DecidableEq

def Leaf.text (spell : Name → String) : Leaf → String
  | .number n => n.repr
  | .truth b => if b then "true" else "false"
  | .null => "null"
  | .quoted q => String.ofList q.chars
  | .member type value => String.ofList type.chars ++ "." ++ String.ofList value.chars
  | .name w => spell w

def Name.plain (w : Name) : String := String.ofList w.chars

def Name.reference (w : Name) : String := referenceText w.plain

inductive UnaryOp where
  | not | complement | plus | minus | typeof
  deriving DecidableEq

def UnaryOp.text : UnaryOp → String
  | .not => "!"
  | .complement => "~"
  | .plus => "+"
  | .minus => "-"
  | .typeof => "typeof"

inductive BinaryOp where
  | mul | div | rem
  | add | sub
  | shiftLeft | shiftRight
  | le | lt | ge | gt | instanceOf | isIn
  | same | equal | notSame | notEqual
  | bitAnd
  | bitXor
  | bitOr
  | and
  | or
  deriving DecidableEq

def BinaryOp.text : BinaryOp → String
  | .mul => "*" | .div => "/" | .rem => "%"
  | .add => "+" | .sub => "-"
  | .shiftLeft => "<<" | .shiftRight => ">>"
  | .le => "<=" | .lt => "<" | .ge => ">=" | .gt => ">" | .instanceOf => "instanceof" | .isIn => "in"
  | .same => "===" | .equal => "==" | .notSame => "!==" | .notEqual => "!="
  | .bitAnd => "&"
  | .bitXor => "^"
  | .bitOr => "|"
  | .and => "&&"
  | .or => "||"

/-- The level of a binary operator, from the tightest to the loosest. -/
def BinaryOp.level : BinaryOp → Nat
  | .mul | .div | .rem => 0
  | .add | .sub => 1
  | .shiftLeft | .shiftRight => 2
  | .le | .lt | .ge | .gt | .instanceOf | .isIn => 3
  | .same | .equal | .notSame | .notEqual => 4
  | .bitAnd => 5
  | .bitXor => 6
  | .bitOr => 7
  | .and => 8
  | .or => 9

inductive Expr where
  | leaf (a : Leaf)
  | unary (op : UnaryOp) (e : Expr)
  | binary (op : BinaryOp) (l r : Expr)
  | conditional (test yes no : Expr)
  deriving DecidableEq

namespace Expr

def rank : Expr → Nat
  | leaf _ => 0
  | unary _ _ => 0
  | binary op _ _ => op.level + 1
  | conditional _ _ _ => 11

def enclosed (limit rank : Nat) (text : String) : String :=
  if rank ≤ limit then text else parenthesised text

def text (spell : Name → String) : Expr → String
  | leaf a => a.text spell
  | unary op e => op.text ++ " " ++ enclosed 0 e.rank (e.text spell)
  | binary op l r =>
    enclosed (op.level + 1) l.rank (l.text spell) ++ " " ++ op.text ++ " " ++
      enclosed op.level r.rank (r.text spell)
  | conditional test yes no =>
    enclosed 10 test.rank (test.text spell) ++ " ? " ++ yes.text spell ++ " : " ++ no.text spell

/-- The text of an expression in a place for operands up to a rank. -/
def within (spell : Name → String) (limit : Nat) (e : Expr) : String :=
  enclosed limit e.rank (e.text spell)

def endsInNumber : Expr → Bool
  | leaf (.number _) => true
  | leaf _ => false
  | unary _ e => e.rank ≤ 0 && e.endsInNumber
  | binary op _ r => r.rank ≤ op.level && r.endsInNumber
  | conditional _ _ no => no.endsInNumber

/-- Whether the last word of a text up to a rank is a number. -/
def numberWithin (limit : Nat) (e : Expr) : Bool := e.rank ≤ limit && e.endsInNumber

def percentFree : Expr → Bool
  | leaf _ => true
  | unary _ e => e.percentFree
  | binary op l r =>
    l.percentFree && r.percentFree && !(op == .rem && l.numberWithin (op.level + 1))
  | conditional test yes no => test.percentFree && yes.percentFree && no.percentFree

end Expr

/-- Words that are read as something else, also before a dot. -/
def reservedWords : List String := ["null", "true", "false", "import"]

/-- Whether a leaf is read as itself: few enough digits, and no reserved word at the start of a name. -/
def Leaf.readable : Leaf → Bool
  | .number n => n < 10 ^ Number.mostDigits
  | .name w => !reservedWords.contains (String.ofList (w.chars.takeWhile (· != '.')))
  | _ => true

def Expr.readable : Expr → Bool
  | .leaf a => a.readable
  | .unary _ e => e.readable
  | .binary _ l r => l.readable && r.readable
  | .conditional test yes no => test.readable && yes.readable && no.readable

namespace Expr

variable {spell : Name → String}
variable {e : Expr} {level : Nat}

theorem within_of_le {limit : Nat} (h : e.rank ≤ limit) : e.within spell limit = e.text spell := if_pos h

theorem within_of_lt {limit : Nat} (h : limit < e.rank) :
    e.within spell limit = parenthesised (e.text spell) := if_neg (by omega)

theorem toList_parenthesised (t : String) : (parenthesised t).toList = '(' :: (t.toList ++ [')']) := by
  simp [parenthesised]

theorem toList_unary (op : UnaryOp) (e : Expr) : ((unary op e).text spell).toList =
    op.text.toList ++ ' ' :: (e.within spell 0).toList := by
  simp [text, within]

theorem toList_conditional (test yes no : Expr) : ((conditional test yes no).text spell).toList =
    (test.within spell 10).toList ++ ' ' :: '?' :: ' ' ::
      ((yes.text spell).toList ++ ' ' :: ':' :: ' ' :: (no.text spell).toList) := by
  simp [text, within]

/-- The spine on a level: the leftmost operand, and the operators with their right operands. -/
def spine (level : Nat) : Expr → Expr × List (BinaryOp × Expr)
  | binary op l r =>
    if op.level = level then ((l.spine level).1, (l.spine level).2 ++ [(op, r)]) else (binary op l r, [])
  | e => (e, [])

def stepText (spell : Name → String) (level : Nat) (step : BinaryOp × Expr) : String :=
  step.1.text ++ " " ++ step.2.within spell level

/-- An expression is no operator of the level, or its spine goes on with that of its left operand. -/
theorem spine_induct {motive : Expr → Prop} (level : Nat)
    (other : ∀ e, e.spine level = (e, []) → (level < 10 → e.rank ≠ level + 1) → motive e)
    (step : ∀ op l r, op.level = level →
      (binary op l r).spine level = ((l.spine level).1, (l.spine level).2 ++ [(op, r)]) →
      motive l → motive (binary op l r)) (e : Expr) : motive e := by
  induction e with
  | leaf a | unary op e => exact other _ rfl fun _ => by simp [rank]
  | conditional test yes no => exact other _ rfl fun h => by simp only [rank]; omega
  | binary op l r ihl _ =>
    by_cases hop : op.level = level
    · exact step op l r hop (by simp [spine, hop]) ihl
    · exact other _ (by simp [spine, hop]) fun _ => by simpa [rank] using hop

theorem within_succ (spell : Name → String) (hlevel : level < 10) (e : Expr) :
    e.within spell (level + 1) =
      " ".intercalate ((e.spine level).1.within spell level :: (e.spine level).2.map (stepText spell level)) := by
  induction e using spine_induct level with
  | other e hspine hrank =>
    have hiff : e.rank ≤ level + 1 ↔ e.rank ≤ level := by have := hrank hlevel; omega
    simp [hspine, within, enclosed, hiff]
  | step op l r hop hspine ih =>
    have hrank : (binary op l r).rank ≤ level + 1 := by simp [rank, hop]
    have htext : (binary op l r).within spell (level + 1) =
        l.within spell (level + 1) ++ " " ++ stepText spell level (op, r) := by
      simp only [within, enclosed, hrank, if_true, text, stepText, hop, String.append_assoc]
    rw [htext, ih, hspine, map_append, ← cons_append, String.intercalate_append_of_ne_nil (by simp) (by simp)]
    simp

theorem level_of_mem_spine (level : Nat) (e : Expr) : ∀ step ∈ (e.spine level).2, step.1.level = level := by
  induction e using spine_induct level with
  | other e hspine _ => simp [hspine]
  | step op l r hop hspine ih =>
    rw [hspine, forall_mem_append]
    exact ⟨ih, forall_mem_singleton.mpr hop⟩

theorem eq_foldl_spine (level : Nat) (e : Expr) :
    e = (e.spine level).2.foldl (fun l step => binary step.1 l step.2) (e.spine level).1 := by
  induction e using spine_induct level with
  | other e hspine _ => rw [hspine, foldl_nil]
  | step op l r hop hspine ih => rw [hspine, foldl_append, ← ih, foldl_cons, foldl_nil]

theorem toList_intercalate_blank (t : String) (ts : List String) :
    (" ".intercalate (t :: ts)).toList = t.toList ++ ts.flatMap fun u => ' ' :: u.toList := by
  induction ts generalizing t with
  | nil => simp
  | cons u ts ih =>
    rw [String.intercalate_cons_cons, String.toList_append, String.toList_append, ih]
    simp

def stepChars (spell : Name → String) (level : Nat) (steps : List (BinaryOp × Expr)) : List Char :=
  steps.flatMap fun step =>
    ' ' :: (step.1.text.toList ++ ' ' :: (step.2.within spell level).toList)

theorem stepChars_cons (spell : Name → String) (level : Nat) (step : BinaryOp × Expr)
    (steps : List (BinaryOp × Expr)) (rest : List Char) :
    stepChars spell level (step :: steps) ++ rest = ' ' :: (step.1.text.toList ++ ' ' ::
      ((step.2.within spell level).toList ++ (stepChars spell level steps ++ rest))) := by
  simp [stepChars]

theorem length_le_stepChars (spell : Name → String) (level : Nat) {steps : List (BinaryOp × Expr)}
    {step : BinaryOp × Expr} (h : step ∈ steps) :
    (step.2.within spell level).toList.length ≤ (stepChars spell level steps).length := by
  induction steps with
  | nil => simp at h
  | cons other steps ih =>
    have hcons := congrArg List.length (stepChars_cons spell level other steps [])
    simp only [append_nil, length_cons, length_append] at hcons
    rcases mem_cons.mp h with rfl | h
    · omega
    · have := ih h
      omega

theorem toList_within_succ (spell : Name → String) (hlevel : level < 10) (e : Expr) :
    (e.within spell (level + 1)).toList =
      ((e.spine level).1.within spell level).toList ++ stepChars spell level (e.spine level).2 := by
  rw [within_succ spell hlevel, toList_intercalate_blank, stepChars, flatMap_map]
  simp [stepText]

/-! ## Percent signs along a spine -/

/-- Whether no step has a percent sign behind a number, `number` being one before. -/
def stepsFree (level : Nat) : (number : Bool) → List (BinaryOp × Expr) → Bool
  | _, [] => true
  | number, (op, e) :: steps => !(op == .rem && number) && stepsFree level (e.numberWithin level) steps

def lastNumber (level : Nat) (number : Bool) (steps : List (BinaryOp × Expr)) : Bool :=
  steps.foldl (fun _ step => step.2.numberWithin level) number

theorem stepsFree_append {steps : List (BinaryOp × Expr)} {op : BinaryOp} {r : Expr}
    (h : stepsFree level number steps = true) (hop : (op == .rem && lastNumber level number steps) = false) :
    stepsFree level number (steps ++ [(op, r)]) = true := by
  induction steps generalizing number with
  | nil =>
    have hfirst : (op == .rem && number) = false := hop
    simp [stepsFree, hfirst]
  | cons step steps ih =>
    obtain ⟨op', e⟩ := step
    simp only [stepsFree, Bool.and_eq_true] at h
    simp only [cons_append, stepsFree, Bool.and_eq_true]
    exact ⟨h.1, ih h.2 hop⟩

theorem lastNumber_spine (hlevel : level < 10) (e : Expr) :
    lastNumber level ((e.spine level).1.numberWithin level) (e.spine level).2 = e.numberWithin (level + 1) := by
  induction e using spine_induct level with
  | other e hspine hrank =>
    have hiff : e.rank ≤ level ↔ e.rank ≤ level + 1 := by have := hrank hlevel; omega
    simp [hspine, lastNumber, numberWithin, hiff]
  | step op l r hop hspine _ =>
    have hrank : (binary op l r).rank ≤ level + 1 := by simp [rank, hop]
    have hends : (binary op l r).numberWithin (level + 1) = r.numberWithin level := by
      rw [numberWithin, decide_eq_true hrank, Bool.true_and, endsInNumber, hop, numberWithin]
    simp [hspine, lastNumber, hends]

theorem stepsFree_spine (hlevel : level < 10) (h : e.percentFree = true) :
    stepsFree level ((e.spine level).1.numberWithin level) (e.spine level).2 = true := by
  induction e using spine_induct level with
  | other e hspine _ => simp [hspine, stepsFree]
  | step op l r hop hspine ih =>
    simp only [percentFree, hop, Bool.and_eq_true, Bool.not_eq_true'] at h
    rw [hspine]
    refine stepsFree_append (ih h.1.1) ?_
    rw [lastNumber_spine hlevel]
    exact h.2

/-- What passes from an expression to its parts holds along its spine. -/
theorem spine_parts {P : Expr → Prop} (hP : ∀ op l r, P (binary op l r) → P l ∧ P r) (level : Nat) (h : P e) :
    P (e.spine level).1 ∧ ∀ step ∈ (e.spine level).2, P step.2 := by
  induction e using spine_induct level with
  | other e hspine _ => simpa [hspine] using h
  | step op l r _ hspine ih =>
    obtain ⟨hhead, hsteps⟩ := ih (hP op l r h).1
    rw [hspine, forall_mem_append]
    exact ⟨hhead, hsteps, forall_mem_singleton.mpr (hP op l r h).2⟩

end Expr

/-! ## What follows an expression -/

/-- What may follow an expression up to a rank: a mark that closes, a branch, or a looser operator; no percent sign
behind a number. -/
inductive Closes (limit : Nat) (number : Bool) : List Char → Prop where
  | mark {x : Char} {s : List Char} (hx : x = ';' ∨ x = ')') : Closes limit number (x :: s)
  | branch {x : Char} {s : List Char} (hx : x = '?' ∨ x = ':') : Closes limit number (' ' :: x :: s)
  | operator (op : BinaryOp) {s : List Char} (hlevel : limit ≤ op.level)
      (hrem : (op == .rem && number) = false) :
      Closes limit number (' ' :: (op.text.toList ++ ' ' :: s))

theorem Closes.mono {limit limit' : Nat} (hle : limit' ≤ limit) (h : Closes limit number s) :
    Closes limit' number s := by
  cases h with
  | mark hx => exact .mark hx
  | branch hx => exact .branch hx
  | operator op hlevel hrem => exact .operator op (Nat.le_trans hle hlevel) hrem

theorem Closes.steps {level : Nat} {steps : List (BinaryOp × Expr)}
    (hlevel : ∀ step ∈ steps, step.1.level = level) (hfree : Expr.stepsFree level number steps = true)
    (h : Closes (level + 1) (Expr.lastNumber level number steps) s) :
    Closes level number (Expr.stepChars spell level steps ++ s) := by
  cases steps with
  | nil => exact h.mono (Nat.le_succ level)
  | cons step steps =>
    have hop : (step.1 == .rem && number) = false := by
      simp only [Expr.stepsFree, Bool.and_eq_true, Bool.not_eq_true'] at hfree
      exact hfree.1
    rw [Expr.stepChars_cons]
    exact .operator step.1 (Nat.le_of_eq (hlevel step (by simp)).symm) hop

theorem Closes.steps_of_false {level : Nat} {steps : List (BinaryOp × Expr)}
    (hlevel : ∀ step ∈ steps, step.1.level = level) (h : Closes (level + 1) false s) :
    Closes level false (Expr.stepChars spell level steps ++ s) := by
  cases steps with
  | nil => exact h.mono (Nat.le_succ level)
  | cons step steps =>
    rw [Expr.stepChars_cons]
    exact .operator step.1 (Nat.le_of_eq (hlevel step (by simp)).symm) (by simp)

/-- What may follow an expression: a mark that closes, or a second branch. -/
inductive Ends : List Char → Prop where
  | mark {x : Char} {s : List Char} (hx : x = ';' ∨ x = ')') : Ends (x :: s)
  | colon {s : List Char} : Ends (' ' :: ':' :: s)

theorem Ends.closes {limit : Nat} (h : Ends s) : Closes limit number s := by
  cases h with
  | mark hx => exact .mark hx
  | colon => exact .branch (.inr rfl)

end QmlScript.Grammar
