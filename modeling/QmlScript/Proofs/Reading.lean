import QmlScript.Grammar.Source
import QmlScript.Proofs.Scanning

/-!
# Reading words

What a parser does is told by the text ahead: `c.At s`, or `c.Faces s` up to blanks before `s`. A text is
`Solid` if it starts with no blank, comment or import. For each kind of word there is a law for finding it and
one for missing it, and both leave the notes as they are.
-/

namespace QmlScript.Grammar

open List Option Text

variable {α β : Type} {c c' : Cursor} {notes notes' : Notes} {s t rest : List Char}
variable {x y : Char} {p first other : Char → Bool} {w : List Char} {lack : Lack} {word : String} {words : List String}
variable {ps : List (Parser α)} {reply : Reply α} {find : Text.Recogniser α} {a : α}

structure Cursor.At (c : Cursor) (s : List Char) : Prop where
  ahead : c.ahead = s
  left : c.left = s.length

def Cursor.reach (c : Cursor) (s : List Char) : Cursor := c.advance (c.left - s.length)

def Cursor.Faces (c : Cursor) (s : List Char) : Prop :=
  ∃ gap : List Char, (∀ x ∈ gap, isGap x = true) ∧ c.At (gap ++ s)

def Cursor.Clear (c : Cursor) : Prop := c.before.any isKeywordChar = false

theorem Cursor.advance_add (m n : Nat) (c : Cursor) : c.advance (m + n) = (c.advance m).advance n := by
  induction m generalizing c with
  | zero => rw [Nat.zero_add]; rfl
  | succ m ih =>
    rw [Nat.add_right_comm]
    cases h : c.ahead with
    | nil =>
      simp only [advance, h]
      cases n <;> simp [advance, h]
    | cons x s =>
      simp only [advance, h]
      exact ih _

theorem Cursor.At.advance (h : c.At (s ++ t)) : (c.advance s.length).At t := by
  induction s generalizing c with
  | nil => exact h
  | cons x s ih =>
    have hleft : c.left = (s ++ t).length + 1 := by simpa using h.left
    rw [length_cons, Cursor.advance, h.ahead]
    exact ih ⟨rfl, by rw [hleft]; rfl⟩

theorem Cursor.At.reach_eq (h : c.At (s ++ t)) : c.reach t = c.advance s.length := by
  have hlen : c.left - t.length = s.length := by rw [h.left, length_append]; omega
  rw [Cursor.reach, hlen]

theorem Cursor.At.reach (h : c.At (s ++ t)) : (c.reach t).At t := by
  rw [h.reach_eq]
  exact h.advance

theorem Cursor.At.reach_self (h : c.At s) : c.reach s = c := by
  rw [Cursor.reach, h.left, Nat.sub_self]
  rfl

theorem Cursor.At.reach_reach (h : c.At (s ++ (t ++ rest))) : (c.reach (t ++ rest)).reach rest = c.reach rest := by
  have hlong : c.At ((s ++ t) ++ rest) := by rwa [append_assoc]
  rw [h.reach.reach_eq, h.reach_eq, hlong.reach_eq, length_append, Cursor.advance_add]

/-- The character before a place further on is the last one passed. -/
theorem Cursor.At.before_reach (h : c.At (s ++ x :: t)) : (c.reach t).before = some x := by
  have hlong : c.At ((s ++ [x]) ++ t) := by simpa using h
  rw [hlong.reach_eq, length_append, Cursor.advance_add]
  simp [Cursor.advance, h.advance.ahead]

theorem Cursor.At.faces (h : c.At s) : c.Faces s := ⟨[], by simp, h⟩

theorem Cursor.At.faces_blank (h : c.At (x :: s)) (hx : isGap x = true) : c.Faces s := ⟨[x], by simpa using hx, h⟩

theorem Cursor.Faces.reach (h : c.Faces (s ++ t)) : (c.reach t).At t := by
  obtain ⟨gap, -, hat⟩ := h
  rw [← append_assoc] at hat
  exact hat.reach

theorem Cursor.Faces.reach_head (h : c.Faces s) : (c.reach s).At s := by
  obtain ⟨gap, -, hat⟩ := h
  exact hat.reach

theorem Cursor.Faces.reach_reach (h : c.Faces (s ++ (t ++ rest))) :
    (c.reach (t ++ rest)).reach rest = c.reach rest := by
  obtain ⟨gap, -, hat⟩ := h
  rw [← append_assoc] at hat
  exact hat.reach_reach

theorem Cursor.Faces.clear (h : c.Faces (x :: t)) (hx : isKeywordChar x = false) : (c.reach t).Clear := by
  obtain ⟨gap, -, hat⟩ := h
  rw [Cursor.Clear, hat.before_reach]
  exact hx

/-! ## Blanks, comments and imports -/

structure Solid (s : List Char) : Prop where
  gap : ∀ x ∈ s.head?, isGap x = false
  block : blockComment? s = none
  line : lineComment? s = none
  import_runsOn : ∀ t, after? "import".toList s = some t → t.head?.any isKeywordChar = true

theorem takeWhile_of_head (h : ∀ x ∈ s.head?, p x = false) : s.takeWhile p = [] := by
  cases s with
  | nil => rfl
  | cons x s => simp [h x rfl]

theorem takeWhile_append_of_head (hs : ∀ x ∈ s, p x = true) (ht : ∀ x ∈ t.head?, p x = false) :
    (s ++ t).takeWhile p = s := by
  rw [takeWhile_append_of_pos hs, takeWhile_of_head ht, append_nil]

theorem importLine?_of_solid (h : Solid s) (hc : c.ahead = s) : importLine? c = none := by
  rw [importLine?, keywordAt, hc]
  cases hs : after? "import".toList s with
  | none => rfl
  | some t =>
    have hrun := h.import_runsOn t hs
    by_cases hb : c.before.any isKeywordChar = true
    · simp [hb]
    · simp [hb, hrun]

theorem skipGap_eq (h : c.Faces s) (hs : ∀ x ∈ s.head?, isGap x = false) : skipGap c = c.reach s := by
  obtain ⟨gap, hgap, hat⟩ := h
  rw [skipGap, hat.ahead, takeWhile_append_of_head hgap hs, hat.reach_eq]

theorem skip_eq (h : c.Faces s) (hs : Solid s) : skip c notes = (c.reach s, notes) := by
  have hahead : (c.reach s).ahead = s := h.reach_head.ahead
  rw [skip, skipUpTo, skipGap_eq h hs.gap]
  simp only [hahead, hs.block, hs.line, importLine?_of_solid hs hahead]
  rfl

theorem place_eq (h : c.Faces s) (hs : Solid s) : place c notes = (.done (c.reach s).offset (c.reach s), notes) := by
  rw [place, skip_eq h hs]

/-- `s` is the text ahead of the place behind all that is skipped. -/
structure Cursor.Meets (c : Cursor) (s : List Char) : Prop where
  faces : c.Faces s
  skip : ∀ notes, Grammar.skip c notes = (c.reach s, notes)

theorem Cursor.Faces.meets (h : c.Faces s) (hs : Solid s) : c.Meets s := ⟨h, fun _ => skip_eq h hs⟩

theorem Cursor.At.meets_of_not_clear (h : c.At (x :: s)) (hclear : ¬ c.Clear) (hgap : isGap x = false)
    (hslash : x ≠ '/') : c.Meets (x :: s) := by
  have hbefore : c.before.any isKeywordChar = true := by simpa [Cursor.Clear] using hclear
  have hskip : skipGap c = c := by
    rw [skipGap, h.ahead, takeWhile_cons, if_neg (by simp [hgap])]
    rfl
  have hblock : blockComment? (x :: s) = none := by unfold blockComment?; split <;> simp_all
  have hline : lineComment? (x :: s) = none := by unfold lineComment?; split <;> simp_all
  have himport : importLine? c = none := by
    rw [importLine?, keywordAt]
    cases after? "import".toList c.ahead with
    | none => rfl
    | some t => simp [hbefore]
  refine ⟨h.faces, fun notes => ?_⟩
  rw [Grammar.skip, skipUpTo, hskip, h.reach_self]
  simp only [h.ahead, hblock, hline, himport]
  rfl

theorem solid_of_head (hgap : isGap x = false) (hslash : x ≠ '/')
    (himport : ∀ t, after? "import".toList (x :: s) = some t → t.head?.any isKeywordChar = true) :
    Solid (x :: s) where
  gap := by simpa using hgap
  block := by unfold blockComment?; split <;> simp_all
  line := by unfold lineComment?; split <;> simp_all
  import_runsOn := himport

/-- Whether something to be skipped may start with the character. -/
def opensSkipped (x : Char) : Bool := isGap x || x == '/' || x == 'i'

theorem solid_cons (h : opensSkipped x = false) : Solid (x :: s) := by
  simp only [opensSkipped, Bool.or_eq_false_iff, beq_eq_false_iff_ne] at h
  exact solid_of_head h.1.1 h.1.2 (by simp [after?, Ne.symm h.2])

theorem solid_nil : Solid [] := ⟨by simp, rfl, rfl, by simp [after?]⟩

theorem startsWith_append (w s : List Char) : startsWith w (w ++ s) = true := by
  rw [startsWith, after?_append]
  rfl

theorem startsWith_iff : startsWith w s = true ↔ ∃ t, s = w ++ t := by
  constructor
  · intro h
    obtain ⟨t, ht⟩ := isSome_iff_exists.mp h
    exact ⟨t, eq_append_of_after? ht⟩
  · rintro ⟨t, rfl⟩
    exact startsWith_append w t

theorem startsWith_cons_of_ne (h : x ≠ y) : startsWith (x :: w) (y :: s) = false := by
  simp [startsWith, after?, h]

theorem startsWith_of_head {heads : List Char} (hw : w ≠ [] ∧ heads.all (fun x => w.head? != some x) = true)
    (hx : x ∈ heads) : startsWith w (x :: s) = false := by
  cases w with
  | nil => exact absurd rfl hw.1
  | cons y w =>
    refine startsWith_cons_of_ne ?_
    rintro rfl
    simpa using all_eq_true.mp hw.2 y hx

theorem eq_false_of_all (h : s.all (fun y => !p y) = true) : ∀ y ∈ s, p y = false := by
  simpa using h

/-- Whether a text starts with a word does not depend on what follows, if that is of another class. -/
theorem after?_append_of_head (hw : ∀ y ∈ w, p y = true) (ht : ∀ y ∈ t.head?, p y = false) :
    after? w (s ++ t) = (after? w s).map (· ++ t) := by
  induction w generalizing s with
  | nil => rfl
  | cons x w ih =>
    have hx : p x = true := hw x (by simp)
    cases s with
    | nil =>
      cases t with
      | nil => rfl
      | cons y t =>
        have hne : x ≠ y := by
          rintro rfl
          exact absurd hx (by simp [ht x rfl])
        simp [after?, hne]
    | cons y s =>
      by_cases hxy : x = y
      · simp only [cons_append, after?, if_pos hxy]
        exact ih fun z hz => hw z (by simp [hz])
      · simp [after?, hxy]

theorem startsWith_append_of_head (hw : ∀ y ∈ w, p y = true) (ht : ∀ y ∈ t.head?, p y = false) :
    startsWith w (s ++ t) = startsWith w s := by
  rw [startsWith, after?_append_of_head hw ht, isSome_map, startsWith]

/-- The parser misses at the place, and leaves the notes. -/
def Misses (p : Parser α) (c : Cursor) (notes : Notes) : Prop :=
  ∃ offset lack, p c notes = (.miss offset lack, notes)

def Reply.settles : Reply α → Bool
  | .miss _ _ => false
  | _ => true

section Combinators

open QmlScript.Grammar.Parser

variable {p q : Parser α} {f : α → Parser β} {a : α}
variable {offset : Nat} {lack : Lack}

theorem bind_eq (p : Parser α) (f : α → Parser β) : (p >>= f) = p.bind f := rfl

theorem bind_done (h : p c notes = (.done a c', notes')) : p.bind f c notes = f a c' notes' := by
  rw [Parser.bind, h]

theorem bind_stop (h : p c notes = (.stop offset lack, notes')) : p.bind f c notes = (.stop offset lack, notes') := by
  rw [Parser.bind, h]

theorem Misses.bind (h : Misses p c notes) : Misses (p.bind f) c notes := by
  obtain ⟨offset, lack, hp⟩ := h
  exact ⟨offset, lack, by rw [Parser.bind, hp]⟩

theorem misses_bind_of_done (h : p c notes = (.done a c', notes)) (hf : Misses (f a) c' notes) :
    Misses (p.bind f) c notes := by
  obtain ⟨offset, lack, hf⟩ := hf
  exact ⟨offset, lack, by rw [bind_done h, hf]⟩

theorem tentative_done (h : p c notes = (.done a c', notes')) : tentative p c notes = (.done (some a) c', notes') := by
  rw [tentative, h]

theorem tentative_misses (h : Misses p c notes) : tentative p c notes = (.done none c, notes) := by
  obtain ⟨offset, lack, hp⟩ := h
  rw [tentative, hp]

theorem optional_misses (h : Misses p c notes) : p.optional c notes = (.done none c, notes) := by
  obtain ⟨offset, lack, hp⟩ := h
  rw [Parser.optional, hp]

theorem orElse_done (h : p c notes = (.done a c', notes')) : p.orElse q c notes = (.done a c', notes') := by
  rw [Parser.orElse, h]

theorem orElse_of_misses (h : Misses p c notes) (hq : q c notes = (.done a c', notes')) :
    p.orElse q c notes = (.done a c', notes') := by
  obtain ⟨offset, lack, hp⟩ := h
  rw [Parser.orElse, hp]
  simp only [hq]

theorem Misses.orElse (hp : Misses p c notes) (hq : Misses q c notes) : Misses (p.orElse q) c notes := by
  obtain ⟨offset, lack, hp⟩ := hp
  obtain ⟨offset', lack', hq⟩ := hq
  by_cases hlt : offset < offset'
  · exact ⟨offset', lack', by simp only [Parser.orElse, hp, hq, if_pos hlt]⟩
  · exact ⟨offset, lack, by simp only [Parser.orElse, hp, hq, if_neg hlt]⟩

theorem choice_head (h : p c notes = (reply, notes'))
    (hreply : reply.settles = true) : choice (p :: ps) c notes = (reply, notes') := by
  cases ps with
  | nil => exact h
  | cons q ps =>
    show p.orElse (choice (q :: ps)) c notes = (reply, notes')
    cases reply with
    | miss offset lack => cases hreply
    | done a c' | stop offset lack => rw [Parser.orElse, h]

theorem choice_tail {notes'' : Notes}
    (h : p c notes = (.miss offset lack, notes')) (hps : choice ps c notes' = (reply, notes''))
    (hreply : reply.settles = true) :
    choice (p :: ps) c notes = (reply, notes'') := by
  cases ps with
  | nil =>
    have hnil : choice ([] : List (Parser α)) c notes' = (.miss c.offset .anything, notes') := rfl
    rw [hnil] at hps
    obtain ⟨rfl, -⟩ := Prod.mk.inj hps
    cases hreply
  | cons q ps =>
    show p.orElse (choice (q :: ps)) c notes = (reply, notes'')
    rw [Parser.orElse, h]
    cases reply with
    | miss offset lack => cases hreply
    | done a c' | stop offset lack => simp only [hps]

theorem choice_done (h : p c notes = (.done a c', notes')) :
    choice (p :: ps) c notes = (.done a c', notes') := choice_head h rfl

theorem choice_settled (hreply : reply.settles = true)
    (h : Misses p c notes) (hps : choice ps c notes = (reply, notes')) :
    choice (p :: ps) c notes = (reply, notes') := by
  obtain ⟨offset, lack, hp⟩ := h
  exact choice_tail hp hps hreply

theorem choice_of_misses (h : Misses p c notes) (hps : choice ps c notes = (.done a c', notes')) :
    choice (p :: ps) c notes = (.done a c', notes') := choice_settled rfl h hps

/-- What two alternatives keep holds of the choice of all. -/
theorem choice_of_forall {P : Parser α → Prop} (hnil : P (choice [])) (horElse : ∀ {p q}, P p → P q → P (p.orElse q))
    (h : ∀ p ∈ ps, P p) : P (choice ps) := by
  induction ps with
  | nil => exact hnil
  | cons p ps ih =>
    have hp := h p mem_cons_self
    have hps := ih fun q hq => h q (mem_cons_of_mem p hq)
    cases ps with
    | nil => exact hp
    | cons q ps => exact horElse hp hps

theorem misses_choice (h : ∀ p ∈ ps, Misses p c notes) : Misses (choice ps) c notes :=
  choice_of_forall ⟨_, _, rfl⟩ Misses.orElse h

/-- A round of a repetition, and the rounds after it if it found something. -/
theorem manyUpTo_succ (p : Parser α) (n : Nat) : p.manyUpTo (n + 1) = p.optional >>= fun found =>
    found.elim (Pure.pure []) fun a => p.manyUpTo n >>= fun as => Pure.pure (a :: as) := by
  funext c notes
  simp only [bind_eq, Parser.bind, Parser.optional, manyUpTo]
  rcases p c notes with ⟨_ | _ | _, _⟩ <;> rfl

theorem manyUpTo_misses (h : Misses p c notes) (n : Nat) : p.manyUpTo n c notes = (.done [] c, notes) := by
  obtain ⟨offset, lack, hp⟩ := h
  cases n with
  | zero => rfl
  | succ n => simp only [manyUpTo, hp]

theorem manyUpTo_cons {as : List α} {c'' : Cursor} {notes'' : Notes} {n : Nat}
    (h : p c notes = (.done a c', notes')) (ht : p.manyUpTo n c' notes' = (.done as c'', notes'')) :
    p.manyUpTo (n + 1) c notes = (.done (a :: as) c'', notes'') := by
  simp only [manyUpTo, h]
  rw [bind_done ht]
  rfl

theorem telling_done (h : p c notes = (.done a c', notes')) : telling lack p c notes = (.done a c', notes') := by
  rw [telling, h]

theorem checked_done (h : p c notes = (.done a c', notes')) (hfault : notes'.fault = none) :
    checked p c notes = (.done a c', notes') := by
  rw [checked, h]
  simp [hfault]

theorem checked_stop (h : p c notes = (reply, notes'))
    (hfault : notes'.fault.isSome = true) : checked p c notes = (.stop c.offset .anything, notes') := by
  rw [checked, h]
  simp [hfault]

end Combinators

theorem Cursor.Faces.advance (h : c.Faces (s ++ rest)) : (c.reach (s ++ rest)).advance s.length = c.reach rest := by
  rw [← h.reach_head.reach_eq]
  exact h.reach_reach (s := [])

theorem Cursor.Meets.token_done (h : c.Meets (s ++ rest)) (hf : find (s ++ rest) = some (a, s.length)) :
    token lack find c notes = (.done a (c.reach rest), notes) := by
  rw [token, h.skip]
  simp only [h.faces.reach_head.ahead, hf, h.faces.advance]

theorem Cursor.Meets.token_misses (h : c.Meets s) (hf : find s = none) : Misses (token lack find) c notes :=
  ⟨(c.reach s).offset, lack, by rw [token, h.skip]; simp only [h.faces.reach_head.ahead, hf]⟩

theorem mark_done (hw : word.toList = s) (h : c.Faces (s ++ rest)) (hs : Solid (s ++ rest)) :
    mark word c notes = (.done () (c.reach rest), notes) := by
  refine (h.meets hs).token_done ?_
  rw [literal, hw, startsWith_append]
  rfl

theorem mark_misses (h : c.Faces s) (hs : Solid s) (hw : startsWith word.toList s = false) :
    Misses (mark word) c notes := by
  refine (h.meets hs).token_misses ?_
  rw [literal, hw]
  rfl

theorem mark_misses_of_ne (hw : word.toList = x :: w) (h : c.Faces (y :: s)) (hs : Solid (y :: s)) (hne : x ≠ y) :
    Misses (mark word) c notes := by
  refine mark_misses h hs ?_
  rw [hw]
  exact startsWith_cons_of_ne hne

theorem oneOf_done (h : c.Faces (word.toList ++ rest)) (hs : Solid (word.toList ++ rest))
    (hf : words.find? (fun w => startsWith w.toList (word.toList ++ rest)) = some word) :
    oneOf words c notes = (.done word (c.reach rest), notes) := by
  refine (h.meets hs).token_done ?_
  simp only [hf, map_some, String.length_toList]

theorem Cursor.Meets.oneOf_misses (h : c.Meets s) (hf : ∀ w ∈ words, startsWith w.toList s = false) :
    Misses (oneOf words) c notes := by
  refine h.token_misses ?_
  have hnone : words.find? (fun w => startsWith w.toList s) = none := by
    rw [find?_eq_none]
    intro w hw
    simp [hf w hw]
  simp only [hnone, map_none]

theorem keyword_done (hw : word.toList = s) (h : c.Faces (s ++ rest)) (hs : Solid (s ++ rest))
    (hclear : (c.reach (s ++ rest)).Clear) (hrest : ∀ y ∈ rest.head?, isKeywordChar y = false) :
    keyword word c notes = (.done () (c.reach rest), notes) := by
  have hrest : rest.head?.any isKeywordChar = false := by
    cases rest with
    | nil => rfl
    | cons y rest => exact hrest y rfl
  have hat : keywordAt word.toList (c.reach (s ++ rest)) = .here := by
    rw [keywordAt, h.reach_head.ahead, hw, after?_append]
    have hbefore : (c.reach (s ++ rest)).before.any isKeywordChar = false := hclear
    simp [hbefore, hrest]
  have hlen : word.length = s.length := by rw [← hw, String.length_toList]
  rw [keyword, skip_eq h hs]
  simp only [hat, hlen, h.advance]

/-- A keyword is missed in a longer word, behind a character of a word, and where it does not stand. -/
theorem Cursor.Meets.keyword_misses (h : c.Meets s) (hrun : ∀ t, after? word.toList s = some t →
      t.head?.any isKeywordChar = true ∨ ¬ (c.reach s).Clear) :
    Misses (keyword word) c notes := by
  have hat : keywordAt word.toList (c.reach s) ≠ .here := by
    rw [keywordAt, h.faces.reach_head.ahead]
    cases ht : after? word.toList s with
    | none => simp
    | some t =>
      have hbeside := hrun t ht
      by_cases hb : (c.reach s).before.any isKeywordChar = true
      · simp [hb]
      · rcases hbeside with hrun | hclear
        · simp [hb, hrun]
        · exact absurd (Bool.eq_false_iff.mpr hb) hclear
  unfold Misses
  rw [keyword, h.skip]
  simp only
  cases hk : keywordAt word.toList (c.reach s) with
  | here => exact absurd hk hat
  | absent | runsOn | runsInto => exact ⟨_, _, rfl⟩

theorem keyword_misses (h : c.Faces s) (hs : Solid s)
    (hrun : ∀ t, after? word.toList s = some t → t.head?.any isKeywordChar = true) :
    Misses (keyword word) c notes := (h.meets hs).keyword_misses fun t ht => .inl (hrun t ht)

theorem keyword_misses_of_ne (hw : word.toList = x :: w) (h : c.Faces (y :: s)) (hs : Solid (y :: s)) (hne : x ≠ y) :
    Misses (keyword word) c notes := by
  refine keyword_misses h hs ?_
  simp [hw, after?, hne]

theorem Cursor.Meets.name_done (h : c.Meets (x :: s ++ rest)) (hx : first x = true) (hother : ∀ y ∈ s, other y = true)
    (hrest : ∀ y ∈ rest.head?, other y = false) :
    name lack first other c notes = (.done (String.ofList (x :: s)) (c.reach rest), notes) := by
  refine h.token_done ?_
  rw [cons_append, spanName, if_pos hx, takeWhile_append_of_head hother hrest]

theorem Cursor.Meets.name_misses (h : c.Meets (x :: s)) (hx : first x = false) :
    Misses (name lack first other) c notes := by
  refine h.token_misses ?_
  simp [spanName, hx]

theorem name_misses (h : c.Faces (x :: s)) (hs : Solid (x :: s)) (hx : first x = false) :
    Misses (name lack first other) c notes := (h.meets hs).name_misses hx

theorem Cursor.Meets.numberText_misses (h : c.Meets (x :: s)) (hx : isNumberChar x = false) :
    Misses numberText c notes := by
  have hzero : '0' ≠ x := by
    rintro rfl
    exact absurd hx (by decide)
  unfold Misses
  rw [numberText, h.skip]
  simp only [h.faces.reach_head.ahead, startsWith_cons_of_ne hzero, Bool.false_eq_true, if_false,
    drop_zero, takeWhile_cons, hx, length_nil, if_true]
  exact ⟨_, _, rfl⟩

/-! ## Reading a text as a value -/

/-- Wherever `s` stands before `rest`, the parser reads it as `a`. -/
def Reads (p : Parser α) (s : List Char) (a : α) (rest : List Char) : Prop :=
  ∀ c notes, c.Faces (s ++ rest) → (c.reach (s ++ rest)).Clear →
    p c notes = (.done a (c.reach rest), notes)

/-- Directly before `s`, whatever stands there, the parser reads it as `a`. -/
def ReadsAt (p : Parser α) (s : List Char) (a : α) (rest : List Char) : Prop :=
  ∀ c notes, c.At (s ++ rest) → p c notes = (.done a (c.reach rest), notes)

section Sequences

open QmlScript.Grammar.Parser (tentative)

variable {ι : Type} {p : Parser α} {f : α → Parser β} {b : β}

theorem Reads.behind_blank (h : Reads p s a rest) : ReadsAt p (' ' :: s) a rest :=
  fun c notes hc => h c notes (hc.faces_blank (by decide)) (hc.faces.clear (by decide))

theorem reads_mark (hw : word.toList = s) (hs : Solid (s ++ rest)) : Reads (mark word) s () rest :=
  fun _ _ hf _ => mark_done hw hf hs

theorem readsAt_mark (hw : word.toList = s) (hs : Solid (s ++ rest)) : ReadsAt (mark word) s () rest :=
  fun _ _ hc => mark_done hw hc.faces hs

theorem Reads.bind (hp : Reads p s a (t ++ rest)) (hf : ReadsAt (f a) t b rest) : Reads (p.bind f) (s ++ t) b rest := by
  intro c notes hc hclear
  rw [append_assoc] at hc hclear
  rw [bind_done (hp c notes hc hclear), hf _ notes hc.reach, hc.reach_reach]

theorem ReadsAt.bind (hp : ReadsAt p s a (t ++ rest)) (hf : ReadsAt (f a) t b rest) :
    ReadsAt (p.bind f) (s ++ t) b rest := by
  intro c notes hc
  rw [append_assoc] at hc
  rw [bind_done (hp c notes hc), hf _ notes hc.reach, hc.reach_reach]

/-- Behind a character that is part of no word, a keyword could stand. -/
theorem Reads.bind_clear (hx : isKeywordChar x = false) (hp : Reads p [x] a (s ++ rest))
    (hf : Reads (f a) s b rest) : Reads (p.bind f) (x :: s) b rest := by
  intro c notes hc hclear
  have hat : (c.reach (s ++ rest)).At (s ++ rest) := hc.reach (s := [x])
  have hnext : ((c.reach (s ++ rest)).reach (s ++ rest)).Clear := by
    rw [hat.reach_self]
    exact hc.clear hx
  rw [bind_done (hp c notes hc hclear), hf _ notes hat.faces hnext, hc.reach_reach (s := [x])]

theorem Reads.still (hp : Reads p s a rest) (hf : ∀ c notes, f a c notes = (.done b c, notes)) :
    Reads (p.bind f) s b rest := fun c notes hc hclear => (bind_done (hp c notes hc hclear)).trans (hf _ notes)

theorem ReadsAt.still (hp : ReadsAt p s a rest) (hf : ∀ c notes, f a c notes = (.done b c, notes)) :
    ReadsAt (p.bind f) s b rest := fun c notes hc => (bind_done (hp c notes hc)).trans (hf _ notes)

theorem ReadsAt.tentative (h : ReadsAt p s a rest) : ReadsAt (Parser.tentative p) s (some a) rest :=
  fun c notes hc => tentative_done (h c notes hc)

theorem readsAt_tentative_none (h : ∀ c notes, c.At rest → Misses p c notes) : ReadsAt (tentative p) [] none rest := by
  intro c notes hc
  rw [tentative_misses (h c notes hc)]
  exact congrArg (fun c => (Reply.done none c, notes)) hc.reach_self.symm

theorem length_le_flatMap {chars : ι → List Char} {items : List ι} (h : ∀ i ∈ items, chars i ≠ []) :
    items.length ≤ (items.flatMap chars).length := by
  induction items with
  | nil => simp
  | cons i items ih =>
    have hpos : 0 < (chars i).length := length_pos_iff.mpr (h i (by simp))
    have hlater := ih fun j hj => h j (by simp [hj])
    rw [flatMap_cons, length_append, length_cons]
    omega

/-- Items are read one by one; `R` holds of those left, and reads the first. -/
theorem readsAt_many {chars : ι → List Char} {value : ι → α} {R : List ι → Prop} {items : List ι}
    (hitem : ∀ i l, R (i :: l) → ReadsAt p (chars i) (value i) (l.flatMap chars ++ rest) ∧ R l)
    (hne : ∀ i ∈ items, chars i ≠ []) (hend : ∀ c notes, c.At rest → Misses p c notes) (h : R items) :
    ReadsAt p.many (items.flatMap chars) (items.map value) rest := by
  have hrounds : ∀ n, items.length ≤ n → ReadsAt (p.manyUpTo n) (items.flatMap chars) (items.map value) rest := by
    clear hne
    induction items with
    | nil =>
      intro n _ c notes hc
      rw [manyUpTo_misses (hend c notes hc)]
      exact congrArg (fun c => (Reply.done [] c, notes)) hc.reach_self.symm
    | cons i items ih =>
      rintro (_ | n) hn c notes hc
      · cases hn
      · obtain ⟨hfirst, hitems⟩ := hitem i items h
        rw [flatMap_cons, append_assoc] at hc
        have hlater := ih hitems n (Nat.le_of_succ_le_succ hn) _ notes hc.reach
        rw [hc.reach_reach] at hlater
        exact manyUpTo_cons (hfirst c notes hc) hlater
  intro c notes hc
  have hlength := length_le_flatMap hne
  refine hrounds (c.left + 1) ?_ c notes hc
  rw [hc.left, length_append]
  omega

end Sequences

end QmlScript.Grammar
