import Mathlib.Data.List.Find
import Mathlib.Data.List.GetD
import QmlScript.Proofs.Expression.Operand

/-!
# Reading operators

The parser of one level finds the leftmost operand and then the steps of the spine one by one. It stops behind
them: a looser operator may start like one of the level, but then no operand follows. The induction is on the
length of texts.
-/

namespace QmlScript.Grammar

open QmlScript.Grammar.Parser List Grammar.Expr Text

variable {c c' : Cursor} {notes notes' : Notes} {s t rest : List Char} {limit level bound : Nat}
  {number : Bool}
variable {a : String} {steps : List (BinaryOp × Expr)} {n : Nat} {e : Expr}

def operatorsAt (level : Nat) : List String := binaryOperators.getD level []

def levels (count bound : Nat) : Parser String :=
  binaryLevels (binaryOperators.take count) (unary bound)

theorem binaryLevels_append (levels : List (List String)) (operators : List String) (p : Parser String) :
    binaryLevels (levels ++ [operators]) p = binaryLevel operators (binaryLevels levels p) := by
  induction levels generalizing p with
  | nil => rfl
  | cons first levels ih => exact ih _

theorem levels_succ (h : level < 10) :
    levels (level + 1) bound = binaryLevel (operatorsAt level) (levels level bound) := by
  have htake : binaryOperators.take (level + 1) = binaryOperators.take level ++ [operatorsAt level] := by
    have hlen : level < binaryOperators.length := h
    rw [take_succ_eq_append_getElem hlen, operatorsAt, getD_eq_getElem _ _ hlen]
  rw [levels, htake, binaryLevels_append, levels]

theorem blankFree_operatorsAt : ∀ level < 10, ∀ w ∈ operatorsAt level, w.toList.all (· != ' ') = true := by
  decide

theorem startsWith_sign (hlevel : level < 10) {w : String} (hw : w ∈ operatorsAt level) (op : BinaryOp) :
    startsWith w.toList (op.text.toList ++ ' ' :: s) = startsWith w.toList op.text.toList :=
  startsWith_append_of_head (all_eq_true.mp (blankFree_operatorsAt level hlevel w hw)) (by simp)

theorem BinaryOp.level_lt (op : BinaryOp) : op.level < 10 := by
  cases op <;> decide

theorem BinaryOp.eq_of_startsWith {op : BinaryOp} :
    ∀ level < op.level, ∀ w ∈ operatorsAt level, startsWith w.toList op.text.toList = true →
      ∃ x ∈ ['&', '|'], w.toList = [x] ∧ op.text.toList = [x, x] := by
  have hsigns : ∀ level < op.level, ∀ w ∈ operatorsAt level, startsWith w.toList op.text.toList = true →
      w = "&" ∧ op.text = "&&" ∨ w = "|" ∧ op.text = "||" := by
    cases op <;> decide
  intro level hlevel w hw hstart
  rcases hsigns level hlevel w hw hstart with ⟨rfl, hop⟩ | ⟨rfl, hop⟩
  · exact ⟨'&', mem_cons_self, rfl, by rw [hop]; rfl⟩
  · exact ⟨'|', mem_cons_of_mem _ mem_cons_self, rfl, by rw [hop]; rfl⟩

theorem operation_misses_mark {x : Char} (hx : x ∈ [';', ')', '?', ':']) (hlevel : level < 10) (hf : c.Faces (x :: s)) :
    Misses (operation (oneOf (operatorsAt level)) (levels level bound)) c notes := by
  have hheads : ∀ level < 10, ∀ w ∈ operatorsAt level,
      w.toList ≠ [] ∧ [';', ')', '?', ':'].all (fun x => w.toList.head? != some x) = true := by
    decide
  have hsolid : Solid (x :: s) := solid_cons (eq_false_of_all (by decide) x hx)
  exact ((hf.meets hsolid).oneOf_misses fun w hw => startsWith_of_head (hheads level hlevel w hw) hx).bind

theorem binaryLevels_misses {levels : List (List String)} {p : Parser String} (h : Misses p c notes) :
    Misses (binaryLevels levels p) c notes := by
  induction levels generalizing p with
  | nil => exact h
  | cons operators levels ih => exact ih h.bind

/-- No expression starts at the rest of a bitwise sign, at a closing parenthesis or an opening brace. -/
theorem unary_misses {x : Char} (hx : x ∈ ['&', '|', ')', '\x7b']) (hf : c.Faces (x :: s)) :
    Misses (unary bound) c notes := by
  have hinit : Initial x false false false false false ∧ '[' ≠ x ∧ '(' ≠ x := by
    simp only [mem_cons, not_mem_nil, or_false] at hx
    rcases hx with rfl | rfl | rfl | rfl <;> exact ⟨by constructor <;> decide, by decide, by decide⟩
  have hs : Fresh (x :: s) :=
    fresh_of_class (p := fun y => ['&', '|', ')', '\x7b'].contains y) (by simpa using hx) (by decide)
  have hsign : Misses unaryOperator c notes := (hf.meets hs.solid).oneOf_misses hs.unsigned
  cases bound with
  | zero => exact ⟨_, _, rfl⟩
  | succ bound =>
    have hnone := tentative_misses (p := operation unaryOperator (unary bound)) hsign.bind
    rw [unary]
    exact misses_bind_of_done hnone (operand_misses hf hs hinit.1 hinit.2.1 hinit.2.2)

theorem Closes.operation_misses (h : Closes limit number rest) (hlevel : level < limit) (hlimit : limit ≤ 10)
    (hc : c.At rest) :
    Misses (operation (oneOf (operatorsAt level)) (levels level bound)) c notes := by
  have hten : level < 10 := by omega
  cases h with
  | mark hx => exact operation_misses_mark (by rcases hx with rfl | rfl <;> decide) hten hc.faces
  | branch hx =>
    exact operation_misses_mark (by rcases hx with rfl | rfl <;> decide) hten (hc.faces_blank (by decide))
  | @operator op s hle hrem =>
    have hf : c.Faces (op.text.toList ++ ' ' :: s) := hc.faces_blank (by decide)
    have hs := op.solid s
    cases hfind : (operatorsAt level).find? fun w =>
        startsWith w.toList (op.text.toList ++ ' ' :: s) with
    | none => exact ((hf.meets hs).token_misses (by rw [hfind]; rfl)).bind
    | some w =>
      have hmem := mem_of_find?_eq_some hfind
      have hstart := find?_some hfind
      rw [startsWith_sign hten hmem] at hstart
      -- the bitwise sign is read, and then the rest of the longer sign is no operand
      obtain ⟨x, hx, hw, hop⟩ := BinaryOp.eq_of_startsWith level (by omega) w hmem hstart
      have htext : op.text.toList ++ ' ' :: s = w.toList ++ x :: ' ' :: s := by rw [hop, hw]; rfl
      rw [htext] at hf hs hfind
      exact misses_bind_of_done (oneOf_done hf hs hfind)
        (binaryLevels_misses (unary_misses (mem_append_left [')', '\x7b'] hx) hf.reach.faces)).bind

theorem levels_lift {j k : Nat} (hjk : j ≤ k) (hk : k ≤ 10) (h : Closes k number rest)
    (hc : c'.At rest) (hdone : levels j bound c notes = (.done a c', notes')) :
    levels k bound c notes = (.done a c', notes') := by
  induction hjk with
  | refl => exact hdone
  | @step k hjk ih =>
    have hfirst := ih (by omega) (h.mono (Nat.le_succ k))
    have hmisses : Misses (operation (oneOf (operatorsAt k)) (levels k bound)) c' notes' :=
      h.operation_misses (Nat.lt_succ_self k) hk hc
    rw [levels_succ (by omega)]
    calc binaryLevel (operatorsAt k) (levels k bound) c notes = _ := bind_done hfirst
      _ = _ := bind_done (tentative_misses hmisses)

theorem reads_operation {operator operand : Parser String} {sign : String}
    (hsign : Reads operator t sign (' ' :: s ++ rest)) (h : Reads operand s a rest) :
    Reads (operation operator operand) (t ++ ' ' :: s) (sign ++ " " ++ a) rest :=
  hsign.bind (h.behind_blank.still fun _ _ => rfl)

theorem BinaryOp.reads_sign (op : BinaryOp) : Reads (oneOf (operatorsAt op.level)) op.text.toList op.text (' ' :: s) :=
  fun _ _ hf _ => oneOf_done hf (op.solid _) (by
    -- on its own level an operator is found, and none that starts like it
    rw [find?_congr fun w hw => startsWith_sign op.level_lt hw op]
    cases op <;> decide)

/-- The operands of all steps can be read, whatever follows them. -/
def StepsRead (level bound : Nat) (steps : List (BinaryOp × Expr)) : Prop :=
  ∀ step ∈ steps, step.1.level = level ∧
    ∀ rest, Closes level (step.2.numberWithin level) rest →
      Reads (levels level bound) (step.2.within Name.plain level).toList
        (step.2.within Name.reference level) rest

/-- The steps can be read, and what follows the last of them continues none. -/
def StepsFit (level bound : Nat) (rest : List Char) (steps : List (BinaryOp × Expr)) : Prop :=
  StepsRead level bound steps ∧ ∃ number, Expr.stepsFree level number steps = true ∧
    Closes (level + 1) (Expr.lastNumber level number steps) rest

theorem StepsFit.cons {step : BinaryOp × Expr} (h : StepsFit level bound rest (step :: steps)) :
    ReadsAt (operation (oneOf (operatorsAt level)) (levels level bound))
        (' ' :: (step.1.text.toList ++ ' ' :: (step.2.within Name.plain level).toList))
        (Expr.stepText Name.reference level step) (Expr.stepChars Name.plain level steps ++ rest) ∧
      StepsFit level bound rest steps := by
  obtain ⟨hread, number, hfree, hclose⟩ := h
  obtain ⟨rfl, hoperand⟩ := hread step (by simp)
  have hlater : StepsRead step.1.level bound steps := fun other hmem => hread other (by simp [hmem])
  simp only [Expr.stepsFree, Bool.and_eq_true] at hfree
  have hrest : Closes step.1.level _ (Expr.stepChars Name.plain step.1.level steps ++ rest) :=
    .steps (fun other hmem => (hlater other hmem).1) hfree.2 hclose
  exact ⟨(reads_operation step.1.reads_sign (hoperand _ hrest)).behind_blank, hlater, _, hfree.2, hclose⟩

theorem reads_spine (hlevel : level < 10) (hfree : e.percentFree = true)
    (hhead : ∀ rest, Closes level ((e.spine level).1.numberWithin level) rest →
      Reads (levels level bound) ((e.spine level).1.within Name.plain level).toList
        ((e.spine level).1.within Name.reference level) rest)
    (hsteps : StepsRead level bound (e.spine level).2) (h : Closes (level + 1) (e.numberWithin (level + 1)) rest) :
    Reads (levels (level + 1) bound) (e.within Name.plain (level + 1)).toList
      (e.within Name.reference (level + 1)) rest := by
  have hstepsFree := stepsFree_spine hlevel hfree
  rw [← lastNumber_spine hlevel] at h
  have hfit : StepsFit level bound rest (e.spine level).2 := ⟨hsteps, _, hstepsFree, h⟩
  have hfollow : Closes level _ (Expr.stepChars Name.plain level (e.spine level).2 ++ rest) :=
    .steps (fun step hmem => (hsteps step hmem).1) hstepsFree h
  have hend : ∀ c notes, c.At rest → Misses (operation (oneOf (operatorsAt level)) (levels level bound)) c notes :=
    fun _ _ hc => h.operation_misses (Nat.lt_succ_self level) hlevel hc
  rw [toList_within_succ _ hlevel, within_succ _ hlevel, levels_succ hlevel]
  refine (hhead _ hfollow).bind ?_
  generalize (e.spine level).2 = steps at hfit
  cases steps with
  | nil => exact (readsAt_tentative_none hend).still fun _ _ => rfl
  | cons step steps =>
    obtain ⟨hsecond, hothers⟩ := hfit.cons
    refine hsecond.tentative.bind ?_
    exact (readsAt_many (fun _ _ => StepsFit.cons) (by simp) hend hothers).still fun _ _ => rfl

theorem levels_zero_unsigned (hs : Solid s) (hu : Unsigned s) (hf : c.Faces s) :
    levels 0 (bound + 1) c notes = operand bound c notes := by
  have hsign : Misses unaryOperator c notes := (hf.meets hs).oneOf_misses hu
  have hnone := tentative_misses (p := operation unaryOperator (unary bound)) hsign.bind
  rw [levels, take_zero, binaryLevels, unary]
  exact bind_done hnone

theorem reads_unsigned (hs : Solid (s ++ rest)) (hu : Unsigned (s ++ rest))
    (h : Reads (operand bound) s a rest) : Reads (levels 0 (bound + 1)) s a rest := by
  intro c notes hf hclear
  rw [levels_zero_unsigned hs hu hf]
  exact h c notes hf hclear

theorem UnaryOp.solid (op : UnaryOp) (s : List Char) : Solid (op.text.toList ++ ' ' :: s) := by
  cases op <;> constructor <;> simp [UnaryOp.text, blockComment?, lineComment?, after?, isGap]

theorem UnaryOp.find?_signs (op : UnaryOp) :
    unarySigns.find? (fun w => startsWith w.toList (op.text.toList ++ ' ' :: s)) = some op.text := by
  have hblank : ∀ w ∈ unarySigns, w.toList.all (· != ' ') = true := by decide
  rw [find?_congr fun w hw => startsWith_append_of_head (all_eq_true.mp (hblank w hw)) (by simp)]
  cases op <;> decide

theorem reads_unary {op : UnaryOp} (h : Reads (levels 0 bound) s a rest) :
    Reads (levels 0 (bound + 1)) (op.text.toList ++ ' ' :: s) (op.text ++ " " ++ a) rest := by
  intro c notes hf hclear
  have hsign : Reads unaryOperator op.text.toList op.text (' ' :: s ++ rest) :=
    fun _ _ hf _ => oneOf_done hf (op.solid _) op.find?_signs
  rw [levels, take_zero, binaryLevels, unary]
  exact bind_done (tentative_done (reads_operation hsign h c notes hf hclear))

theorem reads_group (h : Reads (conditional bound) s a (')' :: rest)) :
    Reads (levels 0 (bound + 2)) ('(' :: (s ++ [')'])) (parenthesised a) rest := by
  have hs : ∀ t, Fresh ('(' :: t) := fun t =>
    fresh_of_class (p := fun y => y = '(') (by decide) (by decide)
  refine reads_unsigned (hs _).solid (hs _).unsigned ?_
  have hinner : Reads (inParentheses (conditional bound)) s (parenthesised a) (')' :: rest) :=
    h.still fun _ _ => rfl
  have hgroup : Reads (group (inParentheses (conditional bound))) ('(' :: (s ++ [')'])) (parenthesised a) rest := by
    refine .bind_clear (by decide) (reads_mark rfl (hs _).solid) (Reads.bind (t := [')']) hinner ?_)
    exact (readsAt_mark rfl (solid_cons rfl)).still fun _ _ => rfl
  intro c notes hf hclear
  have hx : Initial '(' false false false false false := by constructor <;> decide
  refine operand_of_later hf (hs _) hx ?_
  refine choice_of_misses (call_misses hf (hs _).solid hx.path) ?_
  refine choice_of_misses (item_misses hf (hs _).solid hx.small) ?_
  refine choice_of_misses (member_misses hf (hs _).solid hx.capital) ?_
  refine choice_of_misses (listing_misses hf (hs _).solid (by decide)) ?_
  exact choice_of_misses (reference_misses hf (hs _).solid hx.small) (choice_done (hgroup c notes hf hclear))

theorem conditional_of_levels (hends : Ends rest) (hc : c'.At rest)
    (h : levels 10 bound c notes = (.done a c', notes')) :
    conditional (bound + 1) c notes = (.done a c', notes') := by
  have hmark : Misses (mark "?") c' notes' := by
    cases hends with
    | mark hx =>
      refine mark_misses_of_ne rfl hc.faces ?_ ?_
      · rcases hx with rfl | rfl <;> exact solid_cons rfl
      · rcases hx with rfl | rfl <;> decide
    | colon =>
      exact mark_misses_of_ne rfl (hc.faces_blank (by decide)) (solid_cons rfl) (by decide)
  rw [conditional]
  refine (bind_done h).trans ?_
  exact bind_done (tentative_misses hmark.bind)

theorem reads_conditional {test yes no : List Char} {b d : String}
    (htest : Reads (levels 10 bound) test a (' ' :: '?' :: ' ' :: (yes ++ ' ' :: ':' :: ' ' :: (no ++ rest))))
    (hyes : Reads (conditional bound) yes b (' ' :: ':' :: ' ' :: (no ++ rest)))
    (hno : Reads (conditional bound) no d rest) :
    Reads (conditional (bound + 1)) (test ++ ' ' :: '?' :: ' ' :: (yes ++ ' ' :: ':' :: ' ' :: no))
      (a ++ " ? " ++ b ++ " : " ++ d) rest := by
  have hmark : ∀ x t, x = '?' ∨ x = ':' → Solid (x :: t) := by
    rintro _ t (rfl | rfl) <;> exact solid_cons rfl
  have hquestion : ∀ t, Reads (mark "?") ['?'] () t := fun t => reads_mark rfl (hmark _ t (.inl rfl))
  have hcolon : ∀ t, Reads (mark ":") [':'] () t := fun t => reads_mark rfl (hmark _ t (.inr rfl))
  have hbranches : ReadsAt (branches (conditional bound))
      ([' ', '?'] ++ (' ' :: yes ++ ([' ', ':'] ++ ' ' :: no))) (b, d) rest := by
    have hrest : ReadsAt (conditional bound) (' ' :: yes) b (([' ', ':'] ++ ' ' :: no) ++ rest) := hyes.behind_blank
    refine (hquestion _).behind_blank.bind (hrest.bind ?_)
    exact (hcolon _).behind_blank.bind (hno.behind_blank.still fun _ _ => rfl)
  have hfirst : Reads (levels 10 bound) test a (([' ', '?'] ++ (' ' :: yes ++ ([' ', ':'] ++ ' ' :: no))) ++ rest) := by
    simpa using htest
  rw [conditional]
  exact hfirst.bind (hbranches.tentative.still fun _ _ => rfl)

/-- Each binary level reads expressions up to its rank shorter than `n`. -/
def LevelsRead (n : Nat) : Prop :=
  ∀ (e : Expr) (level bound : Nat) (rest : List Char), e.percentFree = true → e.readable = true →
    level ≤ 10 → (e.within Name.plain level).toList.length < n →
    3 * (e.within Name.plain level).toList.length + 2 ≤ bound →
    Closes level (e.numberWithin level) rest →
    Reads (levels level bound) (e.within Name.plain level).toList (e.within Name.reference level) rest

/-- The conditional level reads all expressions shorter than `n`. -/
def ConditionalRead (n : Nat) : Prop :=
  ∀ (e : Expr) (bound : Nat) (rest : List Char), e.percentFree = true → e.readable = true →
    (e.text Name.plain).toList.length < n → 3 * (e.text Name.plain).toList.length + 3 ≤ bound →
    Ends rest → Reads (conditional bound) (e.text Name.plain).toList (e.text Name.reference) rest

theorem reads_level_zero (hl : LevelsRead n) (hc : ConditionalRead n)
    (hfree : e.percentFree = true) (hread : e.readable = true) (hlen : (e.within Name.plain 0).toList.length < n + 1)
    (hbound : 3 * (e.within Name.plain 0).toList.length + 2 ≤ bound) (h : Closes 0 (e.numberWithin 0) rest) :
    Reads (levels 0 bound) (e.within Name.plain 0).toList (e.within Name.reference 0) rest := by
  by_cases hrank : e.rank ≤ 0
  · rw [within_of_le hrank] at hlen hbound ⊢
    rw [within_of_le hrank]
    cases e with
    | leaf a =>
      obtain ⟨bound, rfl⟩ : ∃ b, bound = b + 2 := ⟨bound - 2, by omega⟩
      have hstart := Leaf.starts hread h
      exact reads_unsigned hstart.1 hstart.2 (reads_leaf hread bound h)
    | unary op e =>
      rw [toList_unary, length_append, length_cons] at hlen hbound
      obtain ⟨bound, rfl⟩ : ∃ b, bound = b + 1 := ⟨bound - 1, by omega⟩
      rw [toList_unary]
      exact reads_unary (hl e 0 bound rest hfree hread (by omega) (by omega) (by omega) h)
    | binary op l r | conditional test yes no => simp [Expr.rank] at hrank
  · have hlt : 0 < e.rank := by omega
    rw [within_of_lt hlt, toList_parenthesised] at hlen hbound ⊢
    rw [within_of_lt hlt]
    simp only [length_cons, length_append, length_nil] at hlen hbound
    obtain ⟨bound, rfl⟩ : ∃ b, bound = b + 2 := ⟨bound - 2, by omega⟩
    exact reads_group (hc e bound _ hfree hread (by omega) (by omega) (.mark (.inr rfl)))

theorem LevelsRead.step {n : Nat} (hl : LevelsRead n) (hc : ConditionalRead n) : LevelsRead (n + 1) := by
  intro e level
  induction level generalizing e with
  | zero =>
    intro bound rest hfree hread _ hlen hbound h
    exact reads_level_zero hl hc hfree hread hlen hbound h
  | succ level ih =>
    intro bound rest hfree hread hlevel hlen hbound h
    have htext := congrArg List.length (toList_within_succ Name.plain hlevel e)
    rw [length_append] at htext
    have hfrees := spine_parts (P := fun e => e.percentFree = true)
      (fun op l r h => by simp only [Expr.percentFree, Bool.and_eq_true] at h; exact h.1) level hfree
    have hreads := spine_parts (P := fun e => e.readable = true)
      (fun op l r h => by simpa only [Expr.readable, Bool.and_eq_true] using h) level hread
    refine reads_spine hlevel hfree (fun rest h => ?_) (fun step hmem => ⟨?_, fun rest h => ?_⟩) h
    · exact ih _ bound rest hfrees.1 hreads.1 (by omega) (by omega) (by omega) h
    · exact level_of_mem_spine _ _ _ hmem
    · have hstep := length_le_stepChars Name.plain level hmem
      exact ih _ bound rest (hfrees.2 step hmem) (hreads.2 step hmem) (by omega) (by omega) (by omega) h

theorem ConditionalRead.step (hl : LevelsRead n) (hc : ConditionalRead n)
    (hl' : LevelsRead (n + 1)) : ConditionalRead (n + 1) := by
  intro e bound rest hfree hread hlen hbound hends
  obtain ⟨bound, rfl⟩ : ∃ b, bound = b + 1 := ⟨bound - 1, by omega⟩
  by_cases hrank : e.rank ≤ 10
  · rw [← within_of_le hrank] at hlen hbound ⊢
    rw [← within_of_le hrank]
    have hread := hl' e 10 bound rest hfree hread (by omega) hlen (by omega) hends.closes
    intro c notes hf hclear
    exact conditional_of_levels hends hf.reach (hread c notes hf hclear)
  · cases e with
    | conditional test yes no =>
      simp only [Expr.percentFree, Expr.readable, Bool.and_eq_true] at hfree hread
      rw [toList_conditional] at hlen hbound ⊢
      simp only [length_append, length_cons] at hlen hbound
      refine reads_conditional ?_ ?_ ?_
      · exact hl test 10 bound _ hfree.1.1 hread.1.1 (by omega) (by omega) (by omega) (.branch (.inl rfl))
      · exact hc yes bound _ hfree.1.2 hread.1.2 (by omega) (by omega) .colon
      · exact hc no bound _ hfree.2 hread.2 (by omega) (by omega) hends
    | leaf a | unary op e => simp [Expr.rank] at hrank
    | binary op l r =>
      have := op.level_lt
      simp only [Expr.rank] at hrank
      omega

theorem levelsRead_and_conditionalRead (n : Nat) : LevelsRead n ∧ ConditionalRead n := by
  induction n with
  | zero =>
    refine ⟨?_, ?_⟩
    · intro e level bound rest _ _ _ hlen
      exact absurd hlen (Nat.not_lt_zero _)
    · intro e bound rest _ _ hlen
      exact absurd hlen (Nat.not_lt_zero _)
  | succ n ih =>
    have hl := ih.1.step ih.2
    exact ⟨hl, ih.2.step ih.1 hl⟩

theorem reads_text (hfree : e.percentFree = true) (hread : e.readable = true)
    (hbound : 3 * (e.text Name.plain).toList.length + 3 ≤ bound) (hends : Ends rest) :
    Reads (conditional bound) (e.text Name.plain).toList (e.text Name.reference) rest :=
  (levelsRead_and_conditionalRead _).2 e bound rest hfree hread (Nat.lt_succ_self _) hbound hends

end QmlScript.Grammar
