import QmlScript.Proofs.Declaration.Value

/-!
# Components as values

Where the value of a property is a component, an expression is tried first. It finds nothing, or it is *stuck*
inside of the type or right behind it, where neither a semicolon nor a comma follows.
-/

namespace QmlScript.Grammar

open QmlScript.Grammar.Parser List Text

variable {α β : Type} {c c' : Cursor} {notes notes' : Notes} {s t rest : List Char} {bound : Nat} {x : Char}
  {w : List Char}

/-- Where an expression ended too early: before no semicolon or comma. -/
def Stuck (s : List Char) : Prop := s.head?.any (['.', '_', ':', '\x7b'].contains ·) = true

/-- The parser finds nothing at the place, or it ends where it is stuck. -/
def BalksAt (p : Parser α) (c : Cursor) (notes : Notes) : Prop :=
  Misses p c notes ∨ ∃ a c' s, p c notes = (.done a c', notes) ∧ c'.Faces s ∧ Stuck s

/-- Where `s` is ahead, the parser misses or ends where it is stuck. -/
def Balks (p : Parser α) (s : List Char) : Prop :=
  ∀ c notes, c.Faces s → notes.fault = none → ∃ notes', notes'.fault = none ∧
    ((∃ offset lack, p c notes = (.miss offset lack, notes')) ∨
      ∃ a c' t, p c notes = (.done a c', notes') ∧ c'.Faces t ∧ Stuck t)

/-- Whether no number follows where the word starts like `typeof`. -/
def isCalm : List Char → Bool
  | 't' :: 'y' :: 'p' :: 'e' :: 'o' :: 'f' :: s => isCalm s
  | s => s.head?.any fun x => !isNumberChar x

structure ValueType extends TypeName where
  calm : isCalm (head :: tail) = true
  deriving DecidableEq

theorem Stuck.exists_head (h : Stuck s) : ∃ x t, s = x :: t ∧ x ∈ enders ∧ x ≠ ';' ∧ x ≠ ',' := by
  cases s with
  | nil => cases h
  | cons x s =>
    have hx : x ∈ ['.', '_', ':', '\x7b'] := by simpa [Stuck] using h
    simp only [mem_cons, not_mem_nil, or_false] at hx
    refine ⟨x, s, rfl, ?_⟩
    rcases hx with rfl | rfl | rfl | rfl <;> decide

theorem Cursor.Faces.before_reach (h : c.Faces (s ++ x :: t)) : (c.reach t).before = some x := by
  obtain ⟨gap, -, hat⟩ := h
  rw [← append_assoc] at hat
  exact hat.before_reach

theorem stuck_append (hw : ∀ y ∈ w.head?, y = '.' ∨ y = '_')
    (hc : c.At (w ++ ' ' :: '\x7b' :: s)) : ∃ t, c.Faces t ∧ Stuck t := by
  cases w with
  | nil => exact ⟨_, hc.faces.behind_blank, rfl⟩
  | cons y w =>
    refine ⟨_, hc.faces, ?_⟩
    rcases hw y rfl with rfl | rfl <;> rfl

theorem alpha_of_path (hpath : isPathChar x = true) (hnumber : isNumberChar x = false) :
    x.isAlpha = true ∨ x = '_' := by
  have hdigit : x.isDigit = false ∧ x ≠ '.' := by
    constructor <;> simp_all [isNumberChar]
  simpa [isPathChar, isNameChar, Char.isAlphanum, hdigit.1, hdigit.2] using hpath

theorem operand_balks (hx : x.isAlpha = true ∨ x = '_') (hw : ∀ y ∈ w, isPathChar y = true)
    (hfree : ∀ u v, w = u ++ '.' :: v → isFree v = true) (h : c.Meets (x :: w ++ ' ' :: '\x7b' :: s))
    (hreserved : NoLiteral c notes) :
    BalksAt (operand bound) c notes := by
  have hstops : Stops (' ' :: '\x7b' :: s) := (stops_mark (by decide)).behind_blank
  have hat : (c.reach (' ' :: '\x7b' :: s)).At (' ' :: '\x7b' :: s) := h.faces.reach
  have hmark : ∀ (word : String) {y : Char} {u : List Char}, word.toList = y :: u → y ≠ '\x7b' →
      Misses (mark word) (c.reach (' ' :: '\x7b' :: s)) notes := fun _ _ _ hword hne =>
    mark_misses_of_ne hword hat.faces.behind_blank (solid_mark (by decide)) hne
  have hopens : ∀ (word : String) {y : Char} {u : List Char}, word.toList = y :: u → isPathChar y = false →
      Misses (mark word) c notes := by
    intro word y u hword hy
    refine h.token_misses ?_
    have hne : y ≠ x := by
      rintro rfl
      exact absurd (isPathChar_of_alpha hx) (by simp [hy])
    rw [literal, hword, cons_append, startsWith_cons_of_ne hne]
    rfl
  cases bound with
  | zero => exact .inl ⟨_, _, rfl⟩
  | succ bound =>
    have hword := operand_word bound hx hw hstops.apart h hreserved
      (hmark "(" rfl (by decide)) (hmark "[" rfl (by decide))
    obtain ⟨hmiss, hdone⟩ := member_word notes hw hstops (fun u v huv hx c hat =>
      memberValue_misses (fun y hy => hw y (by simp [huv, hy])) hstops (hfree u v huv) hx hat) h
    cases hmember : isMember (x :: w) with
    | true =>
      obtain ⟨a, u, v, rfl, hv, hread⟩ := hdone hmember
      have hf : c.Faces ((x :: u) ++ (v ++ ' ' :: '\x7b' :: s)) := by simpa using h.faces
      obtain ⟨t, ht, hstuck⟩ := stuck_append hv hf.reach
      exact .inr ⟨a, _, t, hword.1 a _ (choice_done hread), ht, hstuck⟩
    | false =>
      have hmembers := hmiss hmember
      have hlisting : Misses listing c notes := (hopens "[" rfl (by decide)).bind
      cases hsmall : isNameStart x with
      | true =>
        have hname : pathName c notes = (.done _ (c.reach (' ' :: '\x7b' :: s)), notes) :=
          h.name_done hsmall hw hstops.apart
        refine .inr ⟨_, _, _, hword.1 _ _ (choice_of_misses hmembers (choice_of_misses hlisting
          (choice_done (bind_done hname)))), hat.faces.behind_blank, rfl⟩
      | false =>
        have hreference : Misses reference c notes := (h.name_misses (s := w ++ _) hsmall).bind
        have hgroup : Misses (group (inParentheses (conditional bound))) c notes :=
          (hopens "(" rfl (by decide)).bind
        exact .inl (hword.2 (hmembers.orElse (hlisting.orElse (hreference.orElse hgroup))))

theorem isCalm_of_not_typeof (h : startsWith "typeof".toList w = false) :
    isCalm w = w.head?.any fun x => !isNumberChar x := by
  unfold isCalm
  split
  · simp [startsWith, after?] at h
  · rfl

theorem typeof_done (notes : Notes) (hf : c.Faces ("typeof".toList ++ t)) :
    unaryOperator c notes = (.done "typeof" (c.reach t), notes) ∧ ¬ (c.reach t).Clear := by
  have hsolid : Solid ("typeof".toList ++ t) := solid_cons rfl
  refine ⟨oneOf_done hf hsolid (by simp [startsWith, after?]), ?_⟩
  have hbefore : (c.reach t).before = some 'f' := Cursor.Faces.before_reach (s := "typeo".toList) hf
  rw [Cursor.Clear, hbefore]
  decide

/-- In the middle of a word nothing is skipped, and no keyword starts. -/
theorem Cursor.At.meets_in_word (notes : Notes) (hat : c.At (x :: s)) (hx : isPathChar x = true)
    (hclear : ¬ c.Clear) : c.Meets (x :: s) ∧ ∀ word, Misses (keyword word) c notes := by
  have hslash : x ≠ '/' := by
    rintro rfl
    exact absurd hx (by decide)
  have hmeets := hat.meets_of_not_clear hclear (not_gap_of_class hx (by decide)) hslash
  refine ⟨hmeets, fun word => hmeets.keyword_misses fun t _ => .inr ?_⟩
  rwa [hat.reach_self]

/-- Also behind `typeof` an expression balks at the rest of the word. -/
theorem unary_balks (hw : ∀ y ∈ w, isPathChar y = true) (hcalm : isCalm w = true)
    (hfree : ∀ u v, w = u ++ '.' :: v → isFree v = true) (h : c.Meets (w ++ ' ' :: '\x7b' :: s))
    (hreserved : NoLiteral c notes) :
    BalksAt (unary bound) c notes := by
  induction bound generalizing w c with
  | zero => exact .inl ⟨_, _, rfl⟩
  | succ bound ih =>
    have hoperand : ∀ {x w'}, w = x :: w' → (x.isAlpha = true ∨ x = '_') →
        Misses (operation unaryOperator (unary bound)) c notes → BalksAt (unary (bound + 1)) c notes := by
      rintro x w' rfl hx hsign
      have hunary : unary (bound + 1) c notes = operand bound c notes := by
        rw [unary]
        exact bind_done (tentative_misses hsign)
      unfold BalksAt Misses
      rw [hunary]
      refine operand_balks hx (fun y hy => hw y (by simp [hy])) (fun u v huv => ?_) h hreserved
      exact hfree (x :: u) v (by rw [huv, cons_append])
    by_cases htypeof : startsWith "typeof".toList w = true
    · obtain ⟨v, rfl⟩ := startsWith_iff.mp htypeof
      have hcalm' : isCalm v = true := hcalm
      obtain ⟨y, v, rfl⟩ : ∃ y v', v = y :: v' := by
        cases v with
        | nil => cases hcalm'
        | cons y v => exact ⟨y, v, rfl⟩
      have hf : c.Faces ("typeof".toList ++ (y :: v ++ ' ' :: '\x7b' :: s)) := by simpa using h.faces
      obtain ⟨hsign, hclear⟩ := typeof_done notes hf
      obtain ⟨hmeets, hkeyword⟩ := hf.reach.meets_in_word notes (hw y (by simp)) hclear
      have hinner : BalksAt (unary bound) (c.reach (y :: v ++ ' ' :: '\x7b' :: s)) notes := by
        refine ih (fun z hz => hw z (by simp [hz])) hcalm' (fun u v' huv => ?_) hmeets fun word _ =>
          hkeyword word
        exact hfree ("typeof".toList ++ u) v' (by rw [huv, append_assoc])
      rcases hinner with hmiss | ⟨a, c', t, hdone, ht, hstuck⟩
      · exact hoperand rfl (by decide) (misses_bind_of_done hsign hmiss.bind)
      · have hsome : tentative (operation unaryOperator (unary bound)) c notes =
            (.done (some ("typeof" ++ " " ++ a)) c', notes) := by
          refine tentative_done ?_
          calc operation unaryOperator (unary bound) c notes = _ := bind_done hsign
            _ = _ := bind_done hdone
        refine .inr ⟨"typeof" ++ " " ++ a, c', t, ?_, ht, hstuck⟩
        rw [unary]
        exact bind_done hsome
    · rw [Bool.not_eq_true] at htypeof
      rw [isCalm_of_not_typeof htypeof] at hcalm
      obtain ⟨x, w, rfl⟩ : ∃ x w', w = x :: w' := by
        cases w with
        | nil => cases hcalm
        | cons x w => exact ⟨x, w, rfl⟩
      have hpath : isPathChar x = true := hw x (by simp)
      have hnumber : isNumberChar x = false := by simpa using hcalm
      have hsigns : Unsigned (x :: w ++ ' ' :: '\x7b' :: s) :=
        unsigned_of_path hpath htypeof (by simpa using (by decide : isPathChar ' ' = false))
      have hsign : Misses unaryOperator c notes := h.oneOf_misses hsigns
      exact hoperand rfl (alpha_of_path hpath hnumber) hsign.bind

theorem conditional_balks (h : BalksAt (unary bound) c notes) : BalksAt (conditional (bound + 1)) c notes := by
  rcases h with h | ⟨a, c', t, hdone, ht, hstuck⟩
  · exact .inl (conditional_misses h)
  · obtain ⟨x, t, rfl, hx, -, -⟩ := hstuck.exists_head
    exact .inr ⟨a, c', x :: t, conditional_of_unary hx ht hdone, ht, hstuck⟩

/-- At the type of a component an expression misses, or ends before the brace. -/
theorem ValueType.balks (w : ValueType) : Balks checkedExpression (' ' :: (w.chars ++ ' ' :: '\x7b' :: s)) := by
  intro c notes hf hfault
  have hapart : Apart (' ' :: '\x7b' :: s) := apart_cons (by decide)
  have hf' : c.Faces (w.chars ++ ' ' :: '\x7b' :: s) := hf.behind_blank
  have hreserved : NoLiteral c notes := by
    intro word hword
    have hkeyword : ∀ word ∈ ["null", "true", "false"], word ∈ keywords := by decide
    exact keyword_misses hf' (w.solid hapart) fun _ ht =>
      runsOn_of_isFree w.isPathChar_of_mem w.free hapart (hkeyword word hword) ht
  have hfree : ∀ u v, w.chars = u ++ '.' :: v → isFree v = true := by
    intro u v huv
    refine isFree_of_append (s := u) ?_
    rw [← huv]
    exact w.free
  have hunary : BalksAt (unary (3 * c.left + 2)) c notes :=
    unary_balks w.isPathChar_of_mem w.calm hfree (hf'.meets (w.solid hapart)) hreserved
  refine ⟨notes, hfault, ?_⟩
  rcases conditional_balks hunary with h | ⟨a, c', t, hdone, ht, hstuck⟩
  · exact .inl (checkedExpression_misses h hfault)
  · exact .inr ⟨_, c', t, checkedExpression_done hdone hfault, ht, hstuck⟩

section Laws

variable {p : Parser α} {f : α → Parser β} {P : α → Prop}

theorem Takes.balks (h : Takes p [] P s) (hs : Stuck s) : Balks p s := by
  intro c notes hf hfault
  obtain ⟨a, c', notes', hdone, -, hc', hfault'⟩ := h c notes hf hfault
  exact ⟨notes', hfault', .inr ⟨a, c', s, hdone, hc', hs⟩⟩

theorem Balks.bind (hp : Balks p s) (hf : ∀ a t, Stuck t → Balks (f a) t) : Balks (p.bind f) s := by
  intro c notes hc hfault
  obtain ⟨notes', hfault', ⟨offset, lack, hmiss⟩ | ⟨a, c', t, hdone, ht, hstuck⟩⟩ := hp c notes hc hfault
  · exact ⟨notes', hfault', .inl ⟨offset, lack, by rw [Parser.bind, hmiss]⟩⟩
  · rw [bind_done hdone]
    exact hf a t hstuck c' notes' ht hfault'

theorem Balks.bind_fails (hp : Balks p s) (hf : ∀ a t, Stuck t → Fails (f a) t) : Fails (p.bind f) s := by
  intro c notes hc hfault
  obtain ⟨notes', hfault', ⟨offset, lack, hmiss⟩ | ⟨a, c', t, hdone, ht, hstuck⟩⟩ := hp c notes hc hfault
  · exact ⟨offset, lack, notes', by rw [Parser.bind, hmiss], hfault'⟩
  · rw [bind_done hdone]
    exact hf a t hstuck c' notes' ht hfault'

theorem Takes.bind_balks (hp : Takes p s P t) (hf : ∀ a, P a → Balks (f a) t) : Balks (p.bind f) (s ++ t) := by
  intro c notes hc hfault
  obtain ⟨a, c', notes', hdone, ha, hc', hfault'⟩ := hp c notes hc hfault
  rw [bind_done hdone]
  exact hf a ha c' notes' hc' hfault'

theorem Balks.optional (h : Balks p s) (hs : Stuck s) : Balks p.optional s := by
  intro c notes hc hfault
  obtain ⟨notes', hfault', ⟨offset, lack, hmiss⟩ | ⟨a, c', t, hdone, ht, hstuck⟩⟩ := h c notes hc hfault
  · exact ⟨notes', hfault', .inr ⟨none, c, s, by rw [Parser.optional, hmiss], hc, hs⟩⟩
  · exact ⟨notes', hfault', .inr ⟨some a, c', t, by rw [Parser.optional, hdone], ht, hstuck⟩⟩

theorem Stuck.fails_mark {word : String} {y : Char} (hs : Stuck s) (hword : word.toList = [y])
    (hy : y = ';' ∨ y = ',') : Fails (mark word) s := by
  obtain ⟨x, t, rfl, hx, hsemicolon, hcomma⟩ := hs.exists_head
  refine fails_of_misses fun c notes hc => mark_misses_of_ne hword hc (solid_ender hx) ?_
  rcases hy with rfl | rfl
  · exact hsemicolon.symm
  · exact hcomma.symm

end Laws

end QmlScript.Grammar
