import QmlScript.Proofs.Declaration.Words

/-!
# Blocks of code

A block is closed if its braces match, those in strings and comments apart, and if it completes each string
and comment that it opens. No run of code in it may start with `import`, since the rest of its line could be
skipped. A closed block is read as it stands, whatever follows.
-/

namespace QmlScript.Grammar

open QmlScript.Grammar.Parser List Option Text

variable {c : Cursor} {notes : Notes} {s t u rest : List Char} {depth : Nat} {x : Char}
variable {n : Nat} {w : List Char}

def commentSize? (s : List Char) : Option Nat := blockComment? s <|> lineComment? s

/-- The length of a string or a comment at the head of a text. -/
def quotedSize? (s : List Char) : Option Nat := quotedString? s <|> commentSize? s

def startsImport (s : List Char) : Bool :=
  match after? "import".toList s with
  | some t => !t.head?.any isKeywordChar
  | none => false

/-- Whether a text closes a block inside of `depth` others at its end, behind `skip` characters of a string or a
comment; `inRun` is whether it goes on with a run of code. -/
def closesFrom : (skip depth : Nat) → (inRun : Bool) → List Char → Bool
  | _, _, _, [] => false
  | skip + 1, depth, _, _ :: s => closesFrom skip depth false s
  | 0, depth, inRun, x :: s =>
    if isGap x then closesFrom 0 depth false s
    else if x = '\x7b' then closesFrom 0 (depth + 1) false s
    else if x = '\x7d' then
      match depth with
      | 0 => s.isEmpty
      | depth + 1 => closesFrom 0 depth false s
    else
      match quotedSize? (x :: s) with
      | some size => closesFrom (size - 1) depth false s
      | none =>
        !isQuote x && !startsWith ['/', '*'] (x :: s) && (inRun || !startsImport (x :: s)) &&
          closesFrom 0 depth true s

structure Block where
  inner : List Char
  closed : closesFrom 0 0 false inner = true
  deriving DecidableEq

def Block.chars (b : Block) : List Char := '\x7b' :: b.inner

def Block.text (b : Block) : String := String.ofList b.chars

/-! ## Strings and comments do not depend on what follows them -/

theorem ne_backslash {quote : Char} (hend : quote = '\\' → s = [] → False)
    (hescape : ∀ y t, quote = '\\' → s = y :: t → False) : quote ≠ '\\' := by
  rintro rfl
  cases s with
  | nil => exact hend rfl rfl
  | cons y s => exact hescape y s rfl rfl

theorem quotedTail?_append_right (rest : List Char) {quote : Char} (h : quotedTail? quote s = some n) :
    quotedTail? quote (s ++ rest) = some n ∧ 0 < n ∧ n ≤ s.length := by
  fun_induction quotedTail? quote s generalizing n with
  | case1 | case2 => cases h
  | case3 y s ih =>
    obtain ⟨m, hm, rfl⟩ := map_eq_some_iff.mp h
    obtain ⟨htail, hpos, hle⟩ := ih hm
    exact ⟨by simp [quotedTail?, htail], by omega, by simpa using hle⟩
  | case4 s hend hescape =>
    obtain rfl : 1 = n := by simpa using h
    exact ⟨by simp [quotedTail?, ne_backslash hend hescape], by omega, by simp⟩
  | case5 y s hend hescape hne ih =>
    obtain ⟨m, hm, rfl⟩ := map_eq_some_iff.mp h
    obtain ⟨htail, hpos, hle⟩ := ih hm
    exact ⟨by simp [quotedTail?, ne_backslash hend hescape, hne, htail], by omega, by simpa using hle⟩

theorem blockTail?_append_right (rest : List Char) (h : blockTail? s = some n) :
    blockTail? (s ++ rest) = some n ∧ 0 < n ∧ n ≤ s.length := by
  fun_induction blockTail? s generalizing n with
  | case1 => cases h
  | case2 s =>
    obtain rfl : 2 = n := by simpa using h
    exact ⟨rfl, by omega, by simp⟩
  | case3 y s hne ih =>
    obtain ⟨m, hm, rfl⟩ := map_eq_some_iff.mp h
    obtain ⟨htail, hpos, hle⟩ := ih hm
    have hnext : ∀ t, y = '*' → s ++ rest = '/' :: t → False := by
      intro t hy hs
      cases s with
      | nil => simp at hle; omega
      | cons z s => exact hne s hy (by rw [(List.cons.inj hs).1])
    exact ⟨by rw [cons_append, blockTail?.eq_3 _ _ hnext, htail, map_some], by omega,
      by simpa using hle⟩

theorem lineTail_append_right (rest : List Char) (h : lineTail s < s.length) : lineTail (s ++ rest) = lineTail s := by
  fun_induction lineTail s with
  | case1 => simp at h
  | case2 s ih =>
    have htail := ih (by simpa using h)
    simp [lineTail, htail]
  | case3 s => rfl
  | case4 y s hne hend ih =>
    have hlt : lineTail s < s.length := by simpa using h
    have hnext : ∀ t, y = '\\' → s ++ rest = '\n' :: t → False := by
      intro t hy hs
      cases s with
      | nil => simp at hlt
      | cons z s => exact hne s hy (by rw [(List.cons.inj hs).1])
    rw [cons_append, lineTail.eq_4 _ _ hnext hend, ih hlt]

theorem quotedString?_append_right (rest : List Char) (h : quotedString? s = some n) :
    quotedString? (s ++ rest) = some n ∧ 0 < n ∧ n ≤ s.length := by
  cases s with
  | nil => cases h
  | cons x s =>
    by_cases hx : isQuote x = true
    · rw [quotedString?, if_pos hx] at h
      obtain ⟨m, hm, rfl⟩ := map_eq_some_iff.mp h
      obtain ⟨htail, hpos, hle⟩ := quotedTail?_append_right rest hm
      rw [cons_append, quotedString?, if_pos hx, htail]
      exact ⟨rfl, by omega, by simpa using hle⟩
    · simp [quotedString?, hx] at h

theorem commentSize?_append_right (rest : List Char) (h : commentSize? s = some n) (hlt : n < s.length) :
    commentSize? (s ++ rest) = some n ∧ 0 < n := by
  unfold commentSize? at h ⊢
  cases hblock : blockComment? s with
  | some m =>
    obtain rfl : m = n := by simpa [hblock] using h
    unfold blockComment? at hblock
    split at hblock
    · obtain ⟨k, hk, rfl⟩ := map_eq_some_iff.mp hblock
      obtain ⟨htail, -, -⟩ := blockTail?_append_right rest hk
      simp [blockComment?, htail]
    · cases hblock
  | none =>
    have hline : lineComment? s = some n := by simpa [hblock] using h
    unfold lineComment? at hline
    split at hline
    · obtain rfl : lineTail _ + 2 = n := by simpa using hline
      have htail := lineTail_append_right rest (by simpa using hlt)
      simp [blockComment?, lineComment?, htail]
    · cases hline

theorem commentSize?_pos (h : commentSize? s = some n) : 0 < n := by
  simp only [commentSize?, blockComment?, lineComment?] at h
  split at h <;> split at h <;> simp at h <;> omega

theorem quotedSize?_cases (h : quotedSize? s = some n) :
    quotedString? s = some n ∨ quotedString? s = none ∧ commentSize? s = some n := by
  cases hs : quotedString? s with
  | some m => exact .inl (by simpa [quotedSize?, hs] using h)
  | none => exact .inr ⟨rfl, by simpa [quotedSize?, hs] using h⟩

theorem quotedSize?_pos (h : quotedSize? s = some n) : 0 < n := by
  rcases quotedSize?_cases h with h | ⟨-, h⟩
  · exact (quotedString?_append_right [] h).2.1
  · exact commentSize?_pos h

/-! ## Closed blocks, piece by piece -/

structure RunAt (n : Nat) (s : List Char) : Prop where
  solid : Solid s
  string : quotedString? s = none
  brace : ∀ t, s ≠ '\x7b' :: t
  size : codeRun s = n

/-- A text that closes a block inside of `depth` others at its end, whatever follows. -/
inductive Closing : (depth : Nat) → List Char → Prop where
  | gap {depth : Nat} {x : Char} {s : List Char} (hx : isGap x = true) (h : Closing depth s) :
      Closing depth (x :: s)
  | opening {depth : Nat} {s : List Char} (h : Closing (depth + 1) s) : Closing depth ('\x7b' :: s)
  | last : Closing 0 ['\x7d']
  | closing {depth : Nat} {s : List Char} (h : Closing depth s) : Closing (depth + 1) ('\x7d' :: s)
  | string {depth : Nat} {u s : List Char} (hu : ∀ rest, quotedString? (u ++ (s ++ rest)) = some u.length)
      (h : Closing depth s) : Closing depth (u ++ s)
  | comment {depth : Nat} {u s : List Char} (hu : ∀ rest, commentSize? (u ++ (s ++ rest)) = some u.length)
      (h : Closing depth s) : Closing depth (u ++ s)
  | run {depth : Nat} {u s : List Char} (hne : u ≠ []) (hu : ∀ rest, RunAt u.length (u ++ (s ++ rest)))
      (h : Closing depth s) : Closing depth (u ++ s)

theorem mem_of_closesFrom {skip : Nat} {inRun : Bool} (h : closesFrom skip depth inRun s = true) : '\x7d' ∈ s := by
  fun_induction closesFrom skip depth inRun s <;> simp_all

theorem closesFrom_skip (h : closesFrom n depth false s = true) :
    ∃ u t, s = u ++ t ∧ u.length = n ∧ closesFrom 0 depth false t = true := by
  induction n generalizing s with
  | zero => exact ⟨[], s, rfl, rfl, h⟩
  | succ n ih =>
    cases s with
    | nil => cases h
    | cons x s =>
      obtain ⟨u, t, rfl, hu, ht⟩ := ih h
      exact ⟨x :: u, t, rfl, by simp [hu], ht⟩

/-- A character of a run of code: it opens no string and no comment. -/
structure Ordinary (x : Char) (s : List Char) : Prop where
  gap : isGap x = false
  opening : x ≠ '\x7b'
  closing : x ≠ '\x7d'
  string : quotedString? (x :: s) = none
  block : blockComment? (x :: s) = none
  line : lineComment? (x :: s) = none

inductive Starts (depth : Nat) (inRun : Bool) : List Char → Prop where
  | gap {x : Char} {s : List Char} (hx : isGap x = true) (h : closesFrom 0 depth false s = true) :
      Starts depth inRun (x :: s)
  | opening {s : List Char} (h : closesFrom 0 (depth + 1) false s = true) :
      Starts depth inRun ('\x7b' :: s)
  | last (hdepth : depth = 0) : Starts depth inRun ['\x7d']
  | closing {d : Nat} {s : List Char} (hdepth : depth = d + 1) (h : closesFrom 0 d false s = true) :
      Starts depth inRun ('\x7d' :: s)
  | quoted {u s : List Char} (hu : quotedSize? (u ++ s) = some u.length) (hne : u ≠ [])
      (h : closesFrom 0 depth false s = true) : Starts depth inRun (u ++ s)
  | other {x : Char} {s : List Char} (hx : ∀ rest, Ordinary x (s ++ rest))
      (himport : inRun = true ∨ startsImport (x :: s) = false) (h : closesFrom 0 depth true s = true) :
      Starts depth inRun (x :: s)

theorem ordinary_append (hgap : isGap x = false) (hopening : x ≠ '\x7b') (hclosing : x ≠ '\x7d')
    (hs : '\x7d' ∈ s) (hnone : quotedSize? (x :: s) = none) (hquote : isQuote x = false)
    (hblock : startsWith ['/', '*'] (x :: s) = false) (rest : List Char) : Ordinary x (s ++ rest) := by
  cases s with
  | nil => cases hs
  | cons y s =>
    refine ⟨hgap, hopening, hclosing, by simp [quotedString?, hquote], ?_, ?_⟩
    · unfold blockComment?
      split
      · simp_all [startsWith, after?]
      · rfl
    · have hline : lineComment? (x :: y :: s) = none := by
        simp only [quotedSize?, commentSize?] at hnone
        simp_all
      unfold lineComment? at hline ⊢
      split at hline
      · cases hline
      · split <;> simp_all

theorem starts_of_closesFrom {inRun : Bool} (h : closesFrom 0 depth inRun s = true) : Starts depth inRun s := by
  cases s with
  | nil => cases h
  | cons x s =>
    unfold closesFrom at h
    split at h
    · rename_i hgap
      exact .gap hgap h
    · split at h
      · rename_i hx
        rw [hx]
        exact .opening h
      · split at h
        · rename_i hx
          rw [hx]
          cases depth with
          | zero =>
            obtain rfl : s = [] := by simpa using h
            exact .last rfl
          | succ d => exact .closing rfl h
        · rename_i hgap hopening hclosing
          split at h
          · rename_i n hn
            have hpos := quotedSize?_pos hn
            obtain ⟨u, t, rfl, hu, ht⟩ := closesFrom_skip h
            have hlen : (x :: u).length = n := by simp; omega
            rw [← hlen] at hn
            exact .quoted (u := x :: u) hn (by simp) ht
          · rename_i hnone
            simp only [Bool.and_eq_true, Bool.or_eq_true, Bool.not_eq_true'] at h
            obtain ⟨⟨⟨hquote, hblock⟩, himport⟩, hs⟩ := h
            exact .other (ordinary_append (by simpa using hgap) hopening hclosing (mem_of_closesFrom hs) hnone
              hquote hblock) himport hs

theorem Ordinary.codeRun (h : Ordinary x s) : codeRun (x :: s) = codeRun s + 1 := by
  simp [Grammar.codeRun, opensQuoted, h.gap, h.opening, h.closing, h.string, h.block, h.line]

theorem opensQuoted_append (hu : quotedSize? (u ++ s) = some u.length) (hne : s ≠ [])
    (rest : List Char) : opensQuoted (u ++ s ++ rest) = true := by
  have hlt : u.length < (u ++ s).length := by
    have hpos := length_pos_iff.mpr hne
    rw [length_append]
    omega
  rcases quotedSize?_cases hu with h | ⟨-, h⟩
  · rw [opensQuoted, (quotedString?_append_right rest h).1]
    rfl
  · have hsome := (commentSize?_append_right rest h hlt).1
    simp only [commentSize?] at hsome
    cases hblock : blockComment? (u ++ s ++ rest) with
    | some n =>
      rw [opensQuoted, hblock]
      simp
    | none =>
      rw [hblock] at hsome
      have hline : lineComment? (u ++ s ++ rest) = some u.length := hsome
      rw [opensQuoted, hline]
      simp

theorem exists_run (h : closesFrom 0 depth true s = true) :
    ∃ u t, s = u ++ t ∧ Starts depth false t ∧ ∀ rest, codeRun (s ++ rest) = u.length := by
  induction hn : s.length using Nat.strong_induction_on generalizing s with
  | _ n ih =>
    cases starts_of_closesFrom h with
    | gap hx hs => exact ⟨[], _, rfl, .gap hx hs, fun rest => by simp [codeRun, hx]⟩
    | opening hs => exact ⟨[], _, rfl, .opening hs, fun rest => by simp [codeRun]⟩
    | last hdepth => exact ⟨[], _, rfl, .last hdepth, fun rest => by simp [codeRun]⟩
    | closing hdepth hs => exact ⟨[], _, rfl, .closing hdepth hs, fun rest => by simp [codeRun]⟩
    | @quoted u s hu hne hs =>
      refine ⟨[], _, rfl, .quoted hu hne hs, fun rest => ?_⟩
      have hopens := opensQuoted_append hu (ne_nil_of_mem (mem_of_closesFrom hs)) rest
      cases u with
      | nil => exact absurd rfl hne
      | cons x u =>
        rw [cons_append, cons_append] at hopens ⊢
        rw [codeRun, hopens]
        simp
    | @other x s hx himport hs =>
      obtain ⟨u, t, rfl, ht, hrun⟩ := ih s.length (by simp at hn; omega) hs rfl
      refine ⟨x :: u, t, rfl, ht, fun rest => ?_⟩
      rw [cons_append, (hx rest).codeRun, hrun, length_cons]

theorem after?_append_cases (h : after? w (s ++ rest) = some t) :
    (∃ t', after? w s = some t' ∧ t = t' ++ rest) ∨ ∀ y ∈ s, y ∈ w := by
  induction w generalizing s with
  | nil =>
    left
    exact ⟨s, rfl, by simpa [after?] using h.symm⟩
  | cons a w ih =>
    cases s with
    | nil => simp
    | cons b s =>
      by_cases hab : a = b
      · rw [cons_append, after?, if_pos hab] at h
        rw [after?, if_pos hab]
        refine (ih h).imp_right fun hs y hy => ?_
        rcases mem_cons.mp hy with rfl | hy
        · simp [hab]
        · simp [hs y hy]
      · simp [after?, hab] at h

/-- A word `import` that goes on does so inside of the block. -/
theorem runsOn_of_closes (hs : '\x7d' ∈ s) (h : startsImport s = false)
    (ht : after? "import".toList (s ++ rest) = some t) : t.head?.any isKeywordChar = true := by
  rcases after?_append_cases ht with ⟨u, hu, rfl⟩ | hall
  · have hhead : u.head?.any isKeywordChar = true := by
      rw [startsImport, hu] at h
      simpa using h
    cases u with
    | nil => cases hhead
    | cons y u => exact hhead
  · exact absurd (hall _ hs) (by decide)

/-- A text that closes a block has pieces that do not depend on what follows. -/
theorem Starts.closing_text (h : Starts depth false s) : Closing depth s := by
  induction hn : s.length using Nat.strong_induction_on generalizing s depth with
  | _ n ih =>
    cases h with
    | gap hx hs => exact .gap hx (ih _ (by simp at hn; omega) (starts_of_closesFrom hs) rfl)
    | opening hs => exact .opening (ih _ (by simp at hn; omega) (starts_of_closesFrom hs) rfl)
    | last hdepth =>
      rw [hdepth]
      exact .last
    | closing hdepth hs =>
      rw [hdepth]
      exact .closing (ih _ (by simp at hn; omega) (starts_of_closesFrom hs) rfl)
    | @quoted u s hu hne hs =>
      have hpos := length_pos_iff.mpr hne
      have hlater := length_pos_iff.mpr (ne_nil_of_mem (mem_of_closesFrom hs))
      rw [length_append] at hn
      have hclosing := ih _ (by omega) (starts_of_closesFrom hs) rfl
      rcases quotedSize?_cases hu with hstring | ⟨-, hcomment⟩
      · refine .string (fun rest => ?_) hclosing
        rw [← append_assoc]
        exact (quotedString?_append_right rest hstring).1
      · refine .comment (fun rest => ?_) hclosing
        rw [← append_assoc]
        exact (commentSize?_append_right rest hcomment (by rw [length_append]; omega)).1
    | @other x s hx himport hs =>
      have hbrace := mem_of_closesFrom hs
      obtain ⟨u, t, rfl, ht, hrun⟩ := exists_run hs
      simp only [length_cons, length_append] at hn
      have hclosing := ih _ (by omega) ht rfl
      refine .run (u := x :: u) (by simp) (fun rest => ?_) hclosing
      have hx := hx rest
      have himport : startsImport (x :: (u ++ t)) = false := himport.resolve_left (by simp)
      have hcons : x :: u ++ (t ++ rest) = x :: ((u ++ t) ++ rest) := by simp
      rw [hcons]
      refine ⟨⟨by simpa using hx.gap, hx.block, hx.line, fun v hv => ?_⟩, hx.string, ?_, ?_⟩
      · exact runsOn_of_closes (s := x :: (u ++ t)) (mem_cons_of_mem _ hbrace) himport hv
      · intro v hv
        exact hx.opening (List.cons.inj hv).1
      · rw [hx.codeRun, hrun, length_cons]

theorem Cursor.At.advance_drop (h : c.At s) (n : Nat) : (c.advance n).At (s.drop n) := by
  induction n generalizing c s with
  | zero => exact h
  | succ n ih =>
    cases s with
    | nil =>
      rw [Cursor.advance, h.ahead]
      exact h
    | cons x s =>
      have hleft : c.left = s.length + 1 := h.left
      rw [Cursor.advance, h.ahead]
      exact ih ⟨rfl, by rw [hleft]; rfl⟩

theorem skipUpTo_eq {m : Nat} (hm : c.left < m) (hn : c.left < n) (hat : c.At s) :
    skipUpTo m c notes = skipUpTo n c notes := by
  induction m generalizing n c s notes with
  | zero => omega
  | succ m ih =>
    obtain ⟨n, rfl⟩ : ∃ k, n = k + 1 := ⟨n - 1, by omega⟩
    have hgap : (skipGap c).At (s.drop (c.ahead.takeWhile isGap).length) := hat.advance_drop _
    have hleft : (skipGap c).left ≤ c.left := by
      rw [hgap.left, hat.left, length_drop]
      omega
    -- what is skipped is not empty, so that less is left
    have hstep : ∀ size notes, 0 < size → (skipGap c).ahead ≠ [] →
        skipUpTo m ((skipGap c).advance size) notes = skipUpTo n ((skipGap c).advance size) notes := by
      intro size notes hpos hne
      have hnext := hgap.advance_drop size
      have hlt : ((skipGap c).advance size).left < (skipGap c).left := by
        have hlength := length_pos_iff.mpr hne
        rw [hnext.left, length_drop, hgap.left]
        rw [hgap.ahead] at hlength
        omega
      exact ih (by omega) (by omega) hnext
    simp only [skipUpTo]
    cases hcomment : (blockComment? (skipGap c).ahead <|> lineComment? (skipGap c).ahead) with
    | some size =>
      refine hstep size _ (commentSize?_pos hcomment) ?_
      intro hnil
      rw [hnil] at hcomment
      cases hcomment
    | none =>
      cases himport : importLine? (skipGap c) with
      | some size =>
        refine hstep size _ ?_ ?_
        · unfold importLine? at himport
          split at himport <;> simp at himport
          omega
        · intro hnil
          simp [importLine?, keywordAt, hnil, after?] at himport
      | none => rfl

theorem commentSize?_head (h : commentSize? s = some n) : ∀ x ∈ s.head?, isGap x = false := by
  have hslash : s.head? = some '/' := by
    simp only [commentSize?, blockComment?, lineComment?] at h
    split at h
    · rfl
    · split at h
      · rfl
      · cases h
  rw [hslash]
  rintro _ ⟨⟩
  rfl

theorem skip_comment (notes : Notes) (hf : c.Faces (u ++ t)) (hu : commentSize? (u ++ t) = some u.length) :
    skip c notes = skip (c.reach t) (notes.comment u (c.reach (u ++ t)).offset) := by
  have hahead : (c.reach (u ++ t)).ahead = u ++ t := hf.reach_head.ahead
  have hnext : (c.reach (u ++ t)).advance u.length = c.reach t := hf.advance
  have hcomment : (blockComment? (u ++ t) <|> lineComment? (u ++ t)) = some u.length := hu
  have hpos := commentSize?_pos hu
  have hleft := hf.length_le
  rw [length_append] at hleft
  rw [skip, skipUpTo, skipGap_eq hf (commentSize?_head hu)]
  simp only [hahead, hcomment, take_left', hnext]
  refine skipUpTo_eq ?_ (Nat.lt_succ_self _) hf.reach
  rw [hf.reach.left]
  omega

/-! ## Reading closed blocks -/

theorem blockItems_solid (bound : Nat) (notes : Notes) (hf : c.Faces s) (hs : Solid s) :
    blockItems (bound + 1) c notes =
      match quotedString? s with
      | some size => blockItems bound ((c.reach s).advance size) notes
      | none =>
        match blockUpTo bound (c.reach s) notes with
        | (.done _ next, notes) => blockItems bound next notes
        | (_, notes) => codeItem (blockItems bound) (c.reach s) notes := by
  have hahead : (c.reach s).ahead = s := hf.reach_head.ahead
  rw [blockItems, itemsOf, skipGap_eq hf hs.gap, skip_eq hf hs]
  simp only [hahead, hs.block, hs.line]
  rfl

def ItemsRead (u rest : List Char) : Prop :=
  ∀ bound c notes, 2 * u.length ≤ bound → c.Faces (u ++ rest) → notes.fault = none →
    ∃ notes', blockItems bound c notes = (.done () (c.reach rest), notes') ∧ notes'.fault = none

theorem ItemsRead.gap (h : ItemsRead u rest) (hx : isGap x = true) : ItemsRead (x :: u) rest := by
  intro bound c notes hbound hf hfault
  exact h bound c notes (by simp at hbound; omega) (hf.behind_gap hx) hfault

theorem blockUpTo_misses (bound : Nat) (notes : Notes) (hc : c.ahead = s) (hs : ∀ t, s ≠ '\x7b' :: t) :
    ∃ offset lack, blockUpTo bound c notes = (.miss offset lack, notes) := by
  cases bound with
  | zero => exact ⟨_, _, rfl⟩
  | succ bound =>
    rw [blockUpTo, blockOf, hc]
    split
    · rename_i t
      exact absurd rfl (hs t)
    · exact ⟨_, _, rfl⟩

theorem itemsRead_brace : ItemsRead ['\x7d'] rest := by
  intro bound c notes hbound hf hfault
  obtain ⟨bound, rfl⟩ : ∃ b, bound = b + 1 := ⟨bound - 1, by simp at hbound; omega⟩
  have hs : Solid (['\x7d'] ++ rest) := solid_mark rfl
  obtain ⟨offset, lack, hmiss⟩ := blockUpTo_misses bound notes hf.reach_head.ahead (by simp)
  have hadvance : (c.reach (['\x7d'] ++ rest)).advance 1 = c.reach rest := hf.advance
  have hahead : (c.reach (['\x7d'] ++ rest)).ahead = '\x7d' :: rest := hf.reach_head.ahead
  have hstring : quotedString? (['\x7d'] ++ rest) = none := by simp [quotedString?, isQuote]
  have hrun : codeRun ('\x7d' :: rest) = 0 := by simp [codeRun]
  refine ⟨notes, ?_, hfault⟩
  rw [blockItems_solid bound notes hf hs, hstring, hmiss]
  simp only [codeItem, hahead, hrun, hadvance]

theorem solid_of_quotedString? (h : quotedString? s = some n) : Solid s := by
  cases s with
  | nil => cases h
  | cons x s =>
    by_cases hx : isQuote x = true
    · exact (fresh_of_class hx (by decide)).solid
    · simp [quotedString?, hx] at h

theorem ItemsRead.string (h : ItemsRead t rest) (hu : quotedString? (u ++ (t ++ rest)) = some u.length) :
    ItemsRead (u ++ t) rest := by
  intro bound c notes hbound hf hfault
  rw [append_assoc] at hf
  have hpos := (quotedString?_append_right [] hu).2.1
  rw [length_append] at hbound
  obtain ⟨bound, rfl⟩ : ∃ b, bound = b + 1 := ⟨bound - 1, by omega⟩
  obtain ⟨notes', hdone, hfault'⟩ := h bound (c.reach (t ++ rest)) notes (by omega) hf.reach.faces hfault
  rw [hf.reach_reach] at hdone
  refine ⟨notes', ?_, hfault'⟩
  rw [blockItems_solid bound notes hf (solid_of_quotedString? hu), hu]
  simp only [hf.advance, hdone]

theorem ItemsRead.run (h : ItemsRead t rest) (hu : RunAt u.length (u ++ (t ++ rest))) (hne : u ≠ []) :
    ItemsRead (u ++ t) rest := by
  intro bound c notes hbound hf hfault
  rw [append_assoc] at hf
  obtain ⟨hs, hstring, hbrace, hsize⟩ := hu
  have hpos := length_pos_iff.mpr hne
  rw [length_append] at hbound
  obtain ⟨bound, rfl⟩ : ∃ b, bound = b + 1 := ⟨bound - 1, by omega⟩
  obtain ⟨offset, lack, hmiss⟩ := blockUpTo_misses bound notes hf.reach_head.ahead hbrace
  obtain ⟨notes', hdone, hfault'⟩ := h bound (c.reach (t ++ rest)) notes (by omega) hf.reach.faces hfault
  rw [hf.reach_reach] at hdone
  refine ⟨notes', ?_, hfault'⟩
  obtain ⟨n, hn⟩ : ∃ n, u.length = n + 1 := ⟨u.length - 1, by omega⟩
  have hadvance := hf.advance
  rw [hn] at hsize hadvance
  rw [blockItems_solid bound notes hf hs, hstring, hmiss]
  simp only [codeItem, hf.reach_head.ahead, hsize, hadvance, hdone]

theorem ItemsRead.block (h : ItemsRead u (t ++ rest)) (h' : ItemsRead t rest) : ItemsRead ('\x7b' :: u ++ t) rest := by
  intro bound c notes hbound hf hfault
  have hf₁ : c.Faces (['\x7b'] ++ (u ++ (t ++ rest))) := by simpa using hf
  have hf₂ : c.Faces ((['\x7b'] ++ u) ++ (t ++ rest)) := by simpa using hf
  simp only [cons_append, length_cons, length_append] at hbound
  obtain ⟨bound, rfl⟩ : ∃ b, bound = b + 2 := ⟨bound - 2, by omega⟩
  have hs : Solid (['\x7b'] ++ (u ++ (t ++ rest))) := solid_mark rfl
  have hahead : (c.reach (['\x7b'] ++ (u ++ (t ++ rest)))).ahead = '\x7b' :: (u ++ (t ++ rest)) :=
    hf₁.reach_head.ahead
  have hadvance : (c.reach (['\x7b'] ++ (u ++ (t ++ rest)))).advance 1 = c.reach (u ++ (t ++ rest)) :=
    hf₁.advance
  have hstring : quotedString? (['\x7b'] ++ (u ++ (t ++ rest))) = none := by simp [quotedString?, isQuote]
  obtain ⟨notes₁, hinner, hfault₁⟩ :=
    h bound (c.reach (u ++ (t ++ rest))) notes (by omega) hf₁.reach.faces hfault
  rw [hf₁.reach_reach] at hinner
  obtain ⟨notes₂, houter, hfault₂⟩ :=
    h' (bound + 1) (c.reach (t ++ rest)) notes₁ (by omega) hf₂.reach.faces hfault₁
  rw [hf₂.reach_reach] at houter
  have hblock : blockUpTo (bound + 1) (c.reach (['\x7b'] ++ (u ++ (t ++ rest)))) notes =
      (.done () (c.reach (t ++ rest)), notes₁) := by
    rw [blockUpTo, blockOf, hahead]
    simp only [hadvance, hinner]
  refine ⟨notes₂, ?_, hfault₂⟩
  rw [blockItems_solid (bound + 1) notes hf₁ hs, hstring, hblock]
  simp only [houter]

/-- Behind a comment a block goes on as if it started there. -/
theorem ItemsRead.comment (h : ItemsRead t rest) (hu : commentSize? (u ++ (t ++ rest)) = some u.length) :
    ItemsRead (u ++ t) rest := by
  intro bound c notes hbound hf hfault
  rw [append_assoc] at hf
  have hpos := commentSize?_pos hu
  rw [length_append] at hbound
  obtain ⟨bound, rfl⟩ : ∃ b, bound = b + 1 := ⟨bound - 1, by omega⟩
  have hahead : (c.reach (u ++ (t ++ rest))).ahead = u ++ (t ++ rest) := hf.reach_head.ahead
  have hgap : skipGap c = c.reach (u ++ (t ++ rest)) := skipGap_eq hf (commentSize?_head hu)
  have hskip := skip_comment notes hf hu
  have hfault' := Notes.fault_comment notes u (c.reach (u ++ (t ++ rest))).offset
  generalize notes.comment u (c.reach (u ++ (t ++ rest))).offset = notes₀ at hskip hfault'
  rw [hfault] at hfault'
  cases hstring : quotedString? (skip c notes).1.ahead with
  | some size =>
    obtain ⟨notes₁, hdone, hfault₁⟩ :=
      h (bound + 1) (c.reach (t ++ rest)) notes₀ (by omega) hf.reach.faces hfault'
    rw [hf.reach_reach] at hdone
    refine ⟨notes₁, ?_, hfault₁⟩
    rw [← hdone, blockItems, itemsOf, itemsOf, ← hskip]
    simp only [hstring]
  | none =>
    have hnoted : (skip c notes).2.fault = none := by rw [fault_skip, hfault]
    obtain ⟨notes₁, hdone, hfault₁⟩ :=
      h bound (c.reach (t ++ rest)) (skip c notes).2 (by omega) hf.reach.faces hnoted
    rw [hf.reach_reach] at hdone
    refine ⟨notes₁, ?_, hfault₁⟩
    have hsome : (blockComment? (u ++ (t ++ rest)) <|> lineComment? (u ++ (t ++ rest))) = some u.length := hu
    rw [blockItems, itemsOf]
    simp only [hstring, hgap, hahead, hsome, hf.advance, hdone]

/-- A text inside of `depth` further blocks closes them one by one. -/
def ClosesAll : (depth : Nat) → List Char → Prop
  | 0, s => ∀ rest, ItemsRead s rest
  | depth + 1, s => ∃ u t, s = u ++ t ∧ (∀ rest, ItemsRead u (t ++ rest)) ∧ ClosesAll depth t

theorem ClosesAll.extend (h : ClosesAll depth s)
    (hw : ∀ u t rest, s = u ++ t → ItemsRead u (t ++ rest) → ItemsRead (w ++ u) (t ++ rest)) :
    ClosesAll depth (w ++ s) := by
  cases depth with
  | zero => exact fun rest => hw s [] rest (append_nil s).symm (h rest)
  | succ depth =>
    obtain ⟨u, t, hs, hu, ht⟩ := h
    exact ⟨w ++ u, t, by rw [hs, append_assoc], fun rest => hw u t rest hs (hu rest), ht⟩

theorem Closing.closesAll (h : Closing depth s) : ClosesAll depth s := by
  induction h with
  | gap hx _ ih => exact ih.extend (w := [_]) fun u t rest _ hu => hu.gap hx
  | @opening depth s _ ih =>
    obtain ⟨u, t, hs, hu, ht⟩ := ih
    have hblock := ht.extend (w := '\x7b' :: u) fun v t' rest hv hread =>
      ItemsRead.block (by simpa [hv] using hu rest) hread
    rw [hs]
    exact hblock
  | last => exact fun _ => itemsRead_brace
  | closing _ ih => exact ⟨['\x7d'], _, rfl, fun _ => itemsRead_brace, ih⟩
  | string hw _ ih =>
    refine ih.extend fun u t rest hs hu => hu.string ?_
    rw [← hw rest, hs, append_assoc]
  | comment hw _ ih =>
    refine ih.extend fun u t rest hs hu => hu.comment ?_
    rw [← hw rest, hs, append_assoc]
  | run hne hw _ ih =>
    refine ih.extend fun u t rest hs hu => hu.run ?_ hne
    rw [← append_assoc u, ← hs]
    exact hw rest

theorem Block.itemsRead (b : Block) : ItemsRead b.inner rest :=
  (starts_of_closesFrom b.closed).closing_text.closesAll rest

theorem Cursor.At.offset_advance (h : c.At (s ++ t)) : (c.advance s.length).offset = c.offset + s.length := by
  induction s generalizing c with
  | nil => rfl
  | cons x s ih =>
    have hleft : c.left = (s ++ t).length + 1 := by simpa using h.left
    rw [length_cons, Cursor.advance, h.ahead]
    refine (ih ⟨rfl, by rw [hleft]; rfl⟩).trans ?_
    show c.offset + 1 + s.length = c.offset + (s.length + 1)
    omega

theorem Block.takes (b : Block) : Takes code b.chars (· = b.text) rest := by
  intro c notes hf hfault
  have hs : Solid (b.chars ++ rest) := solid_mark rfl
  have hf₁ : c.Faces (['\x7b'] ++ (b.inner ++ rest)) := hf
  have hat : (c.reach (b.chars ++ rest)).At (b.chars ++ rest) := hf.reach_head
  have hleft : (c.reach (b.chars ++ rest)).left = b.inner.length + 1 + rest.length := by
    rw [hat.left, length_append]
    rfl
  obtain ⟨notes', hdone, hfault'⟩ := b.itemsRead (3 * (c.reach (b.chars ++ rest)).left + 2)
    (c.reach (b.inner ++ rest)) notes (by omega) hf₁.reach.faces hfault
  rw [hf₁.reach_reach] at hdone
  have hinner : (c.reach (b.chars ++ rest)).advance 1 = c.reach (b.inner ++ rest) := hf₁.advance
  have hahead : (c.reach (b.chars ++ rest)).ahead = '\x7b' :: (b.inner ++ rest) := hat.ahead
  have hblock : blockUpTo (3 * (c.reach (b.chars ++ rest)).left + 3) (c.reach (b.chars ++ rest)) notes =
      (.done () (c.reach rest), notes') := by
    rw [blockUpTo, blockOf, hahead]
    simp only [hinner, hdone]
  have hsize : (c.reach rest).offset - (c.reach (b.chars ++ rest)).offset = b.chars.length := by
    rw [← hf.advance, hat.offset_advance]
    omega
  refine ⟨b.text, c.reach rest, notes', ?_, rfl, hf.reach.faces, hfault'⟩
  simp only [code, skip_eq hf hs, hblock, hsize, hat.ahead, take_left]
  rfl

end QmlScript.Grammar
