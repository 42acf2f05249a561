import Mathlib.Data.List.Lex
import Mathlib.Data.List.TakeDrop
import Mathlib.Data.List.TakeWhile
import QmlScript.Text.CharClass
import QmlScript.Text.Scan

/-!
# Laws of scanning

What stands at the head of a text, and where a text is cut: a text that is put together from two parts is cut
into them again, as long as the first part does not have what it is cut at.
-/

namespace QmlScript.Text

open List Option

variable {sep : Char} {s t : List Char}

theorem after?_append (w s : List Char) : after? w (w ++ s) = some s := by
  induction w with
  | nil => rfl
  | cons x w ih => simpa [after?] using ih

theorem eq_append_of_after? {w : List Char} (h : after? w s = some t) : s = w ++ t := by
  induction w generalizing s with
  | nil => simpa [after?] using h
  | cons x w ih =>
    cases s with
    | nil => simp [after?] at h
    | cons y s =>
      by_cases hxy : x = y
      · rw [after?, if_pos hxy] at h
        rw [hxy, ih h, cons_append]
      · simp [after?, hxy] at h

theorem cutFirst?_append {front : List Char} (back : List Char) (h : sep ∉ front) :
    cutFirst? sep (front ++ sep :: back) = some (front, back) := by
  induction front with
  | nil => simp [cutFirst?]
  | cons x front ih =>
    obtain ⟨hx, hfront⟩ := not_or.mp (mt mem_cons.mpr h)
    simp [cutFirst?, Ne.symm hx, ih hfront]

theorem cutFirst?_eq_some {front back : List Char} (h : cutFirst? sep s = some (front, back)) :
    s = front ++ sep :: back ∧ sep ∉ front := by
  induction s generalizing front with
  | nil => simp [cutFirst?] at h
  | cons x s ih =>
    rw [cutFirst?] at h
    split at h
    · rename_i hx
      obtain ⟨rfl, rfl⟩ := Prod.mk.inj (Option.some.inj h)
      exact ⟨by rw [hx]; rfl, not_mem_nil⟩
    · rename_i hx
      obtain ⟨⟨front', back'⟩, hcut, heq⟩ := map_eq_some_iff.mp h
      obtain ⟨rfl, rfl⟩ := Prod.mk.inj heq
      obtain ⟨rfl, hnot⟩ := ih hcut
      exact ⟨rfl, by simp [Ne.symm hx, hnot]⟩

theorem cutFirst?_eq_none (h : cutFirst? sep s = none) : sep ∉ s := by
  induction s with
  | nil => exact not_mem_nil
  | cons x s ih =>
    rw [cutFirst?] at h
    split at h
    · simp at h
    · rename_i hx
      simp [Ne.symm hx, ih (map_eq_none_iff.mp h)]

theorem cutLast?_eq_some {front back : List Char} (h : cutLast? sep s = some (front, back)) :
    s = front ++ sep :: back ∧ sep ∉ back := by
  obtain ⟨⟨back', front'⟩, hfirst, heq⟩ := map_eq_some_iff.mp h
  obtain ⟨rfl, rfl⟩ := Prod.mk.inj heq
  obtain ⟨hs, hnot⟩ := cutFirst?_eq_some hfirst
  refine ⟨?_, by simpa using hnot⟩
  rw [← reverse_reverse s, hs]
  simp

variable {α : Type} {find : Recogniser α} {taken : α → List Char} {c : Char}

/-- Its characters, which the kernel is slow to find in the text. -/
theorem runsOf_cons (line : List Char) (lines : List String) :
    runsOf (String.ofList line :: lines) = numbersOf line ++ runsOf lines := by
  rw [runsOf, flatMap_cons, String.toList_ofList, runsOf]

theorem isWordChar_of_isBlank (h : isBlank c = true) : isWordChar c = false := by
  have hcodes : ∀ n ∈ List.range' 9 5 ++ List.range' 28 5 ++ List.range' 0x2000 11 ++
      [0x85, 0xa0, 0x1680, 0x2028, 0x2029, 0x202f, 0x205f, 0x3000], isWordChar (Char.ofNat n) = false := by
    unfold isWordChar wordRuns
    repeat rw [runsOf_cons]
    decide +kernel
  have hmem : c.toNat ∈ List.range' 9 5 ++ List.range' 28 5 ++ List.range' 0x2000 11 ++
      [0x85, 0xa0, 0x1680, 0x2028, 0x2029, 0x202f, 0x205f, 0x3000] := by
    simp only [isBlank, isPlainBlank, isWideBlank, Bool.or_eq_true, Bool.and_eq_true,
      decide_eq_true_eq, beq_iff_eq] at h
    simp only [mem_append, mem_cons, mem_range'_1]
    omega
  have hword := hcodes _ hmem
  rwa [Char.ofNat_toNat] at hword

theorem isBlank_of_isWordChar (h : isWordChar c = true) : isBlank c = false := by
  by_contra hblank
  rw [isWordChar_of_isBlank (by simpa using hblank)] at h
  exact Bool.false_ne_true h

theorem drop_length_takeWhile (p : Char → Bool) (s : List Char) : s.drop (s.takeWhile p).length = s.dropWhile p := by
  calc s.drop (s.takeWhile p).length
      = (s.takeWhile p ++ s.dropWhile p).drop (s.takeWhile p).length := by
        rw [takeWhile_append_dropWhile]
    _ = s.dropWhile p := drop_left

theorem head?_dropWhile_of {p : Char → Bool} (h : c ∈ (s.dropWhile p).head?) : p c = false := by
  have hnot := head?_dropWhile_not p s
  rw [mem_def.mp h] at hnot
  simpa using hnot

/-- Finds do not overlap: the text goes on behind the end of a find. -/
theorem piecesFrom_eq_drop (find : Recogniser α) (skip : Nat) (s : List Char) :
    piecesFrom find skip s = pieces find (s.drop skip) := by
  induction s generalizing skip with
  | nil => simp [piecesFrom, pieces]
  | cons c s ih =>
    cases skip with
    | zero => rfl
    | succ skip => exact ih skip

theorem pieces_cons_of_none (h : find (c :: s) = none) : pieces find (c :: s) = .inl c :: pieces find s := by
  rw [pieces, piecesFrom, h]
  rfl

theorem pieces_cons_of_some {a : α} {n : Nat} (h : find (c :: s) = some (a, n)) :
    pieces find (c :: s) = .inr a :: pieces find (s.drop (n - 1)) := by
  rw [pieces, piecesFrom, h]
  exact congrArg _ (piecesFrom_eq_drop find _ s)

theorem findAllFrom_eq_pieces (find : Recogniser α) (skip : Nat) (s : List Char) :
    findAllFrom find skip s = (piecesFrom find skip s).filterMap Sum.getRight? := by
  induction s generalizing skip with
  | nil => simp [findAllFrom, piecesFrom]
  | cons c s ih =>
    cases skip with
    | zero =>
      rw [findAllFrom, piecesFrom]
      rcases find (c :: s) with _ | ⟨a, size⟩
      · exact ih 0
      · simp [ih]
    | succ skip => exact ih skip

theorem substituteFrom_eq_pieces (find : Recogniser (List Char)) (skip : Nat) (s : List Char) :
    substituteFrom find skip s = (piecesFrom find skip s).flatMap (Sum.elim List.singleton id) := by
  induction s generalizing skip with
  | nil => simp [substituteFrom, piecesFrom]
  | cons c s ih =>
    cases skip with
    | zero =>
      rw [substituteFrom, piecesFrom]
      rcases find (c :: s) with _ | ⟨a, size⟩ <;> simp [ih, List.singleton]
    | succ skip => exact ih skip

theorem findAll_cons_of_none (h : find (c :: s) = none) : findAll find (c :: s) = findAll find s := by
  rw [findAll, findAllFrom_eq_pieces, ← pieces, pieces_cons_of_none h]
  exact (findAllFrom_eq_pieces find 0 s).symm

theorem findAll_cons_of_some {a : α} {n : Nat} (h : find (c :: s) = some (a, n)) :
    findAll find (c :: s) = a :: findAll find (s.drop (n - 1)) := by
  rw [findAll, findAllFrom_eq_pieces, ← pieces, pieces_cons_of_some h]
  exact congrArg _ (findAllFrom_eq_pieces find 0 _).symm

theorem mem_findAll_iff {a : α} : a ∈ findAll find s ↔ .inr a ∈ pieces find s := by
  rw [findAll, findAllFrom_eq_pieces, mem_filterMap]
  constructor
  · rintro ⟨piece, hmem, hright⟩
    obtain rfl := Sum.getRight?_eq_some_iff.mp hright
    exact hmem
  · exact fun hmem => ⟨.inr a, hmem, rfl⟩

theorem find_eq_none_of_pieces (h : ∀ a, .inr a ∉ pieces find s) (hne : t ≠ []) (ht : t <:+ s) : find t = none := by
  induction s with
  | nil => exact absurd (suffix_nil.mp ht) hne
  | cons c s ih =>
    rcases hfind : find (c :: s) with _ | ⟨a, n⟩
    · rw [pieces_cons_of_none hfind] at h
      rcases suffix_cons_iff.mp ht with rfl | ht
      · exact hfind
      · exact ih (fun a ha => h a (mem_cons_of_mem _ ha)) ht
    · exact absurd (by rw [pieces_cons_of_some hfind]; exact mem_cons_self) (h a)

theorem pieces_append {u : List Char} (h : ∀ w, w ≠ [] → w <:+ u → find (w ++ s) = none) :
    pieces find (u ++ s) = u.map .inl ++ pieces find s := by
  induction u with
  | nil => rfl
  | cons c u ih =>
    have hc : find (c :: (u ++ s)) = none := h (c :: u) (cons_ne_nil _ _) suffix_rfl
    rw [cons_append, pieces_cons_of_none hc, ih fun w hw hsuffix => h w hw (hsuffix.trans (suffix_cons c u))]
    rfl

/-- A recogniser takes what it finds, and at least one character. -/
def Takes (find : Recogniser α) (taken : α → List Char) : Prop :=
  ∀ s a n, find s = some (a, n) → taken a ≠ [] ∧ n = (taken a).length ∧ taken a <+: s

theorem Takes.induction (h : Takes find taken) {motive : List Char → Prop} (nil : motive [])
    (char : ∀ c s, pieces find (c :: s) = .inl c :: pieces find s → find (c :: s) = none → motive s → motive (c :: s))
    (found : ∀ a s, pieces find (taken a ++ s) = .inr a :: pieces find s →
      find (taken a ++ s) = some (a, (taken a).length) → motive s → motive (taken a ++ s)) (s : List Char) :
    motive s := by
  induction hn : s.length using Nat.strong_induction_on generalizing s with
  | _ n ih =>
    cases s with
    | nil => exact nil
    | cons c s =>
      rcases hfind : find (c :: s) with _ | ⟨a, n⟩
      · exact char c s (pieces_cons_of_none hfind) hfind (ih s.length (by simp at hn; omega) s rfl)
      · obtain ⟨hne, rfl, rest, hs⟩ := h _ a n hfind
        obtain ⟨d, front, hfront⟩ := exists_cons_of_ne_nil hne
        have hpieces := pieces_cons_of_some hfind
        rw [hfront, cons_append] at hs
        obtain ⟨rfl, rfl⟩ := List.cons.inj hs
        rw [hfront, length_cons, Nat.add_sub_cancel, drop_left] at hpieces
        have hrest := ih rest.length (by simp at hn; omega) rest rfl
        rw [← cons_append, ← hfront] at hpieces hfind ⊢
        exact found a rest hpieces hfind hrest

theorem Takes.flatMap_pieces (h : Takes find taken) (s : List Char) :
    (pieces find s).flatMap (Sum.elim List.singleton taken) = s := by
  induction s using h.induction with
  | nil => rfl
  | char c s hpieces _ ih => rw [hpieces, flatMap_cons, ih, Sum.elim_inl, List.singleton, singleton_append]
  | found a s hpieces _ ih => rw [hpieces, flatMap_cons, ih, Sum.elim_inr]

theorem Takes.exists_find (h : Takes find taken) {a : α} (ha : .inr a ∈ pieces find s) :
    ∃ t n, t <:+ s ∧ find t = some (a, n) := by
  induction s using h.induction with
  | nil => cases ha
  | char c s hpieces _ ih =>
    rw [hpieces] at ha
    obtain ⟨t, n, ht, hfound⟩ := ih (by simpa using ha)
    exact ⟨t, n, ht.trans (suffix_cons c s), hfound⟩
  | found b s hpieces hfind ih =>
    rw [hpieces, mem_cons] at ha
    rcases ha with heq | ha
    · obtain rfl := Sum.inr.inj heq
      exact ⟨_, _, suffix_rfl, hfind⟩
    · obtain ⟨t, n, ht, hfound⟩ := ih ha
      exact ⟨t, n, ht.trans (suffix_append _ _), hfound⟩

theorem Takes.infix_of_find (h : Takes find taken) {a : α} (ha : .inr a ∈ pieces find s) : taken a <:+: s := by
  obtain ⟨t, n, ht, hfound⟩ := h.exists_find ha
  exact ((h t a n hfound).2.2.isInfix).trans ht.isInfix

def Later (s t : List Char) : Prop := ∃ c d s' t', c < d ∧ s = c :: s' ∧ t = d :: t'

theorem Later.append (h : Later s t) (s' t' : List Char) : s ++ s' < t ++ t' := by
  obtain ⟨c, d, s, t, hlt, rfl, rfl⟩ := h
  exact cons_lt_cons_iff.mpr (.inl hlt)

/-- Putting something later in the place of some finds makes a text later. -/
theorem flatMap_lt_flatMap (taken put : α → List Char) {ps : List (Char ⊕ α)}
    (h : ∀ a, .inr a ∈ ps → put a = taken a ∨ Later (taken a) (put a))
    (hfound : ∃ a, .inr a ∈ ps ∧ Later (taken a) (put a)) :
    ps.flatMap (Sum.elim List.singleton taken) < ps.flatMap (Sum.elim List.singleton put) := by
  induction ps with
  | nil => simp at hfound
  | cons p ps ih =>
    have hrest := ih fun a ha => h a (mem_cons_of_mem _ ha)
    cases p with
    | inl c => exact cons_lt_cons_iff.mpr (.inr ⟨rfl, hrest (by simpa using hfound)⟩)
    | inr a =>
      rw [flatMap_cons, flatMap_cons, Sum.elim_inr, Sum.elim_inr]
      rcases h a mem_cons_self with heq | hlater
      · obtain ⟨b, hmem, hlater⟩ := hfound
        rcases mem_cons.mp hmem with hb | hmem
        · obtain rfl := Sum.inr.inj hb
          exact hlater.append _ _
        · rw [heq]
          exact append_left_lt (hrest ⟨b, hmem, hlater⟩)
      · exact hlater.append _ _

theorem pieces_eq_map (h : ∀ a, .inr a ∉ pieces find s) : pieces find s = s.map .inl := by
  have hs : pieces find (s ++ []) = s.map .inl ++ pieces find [] := by
    refine pieces_append fun w hw hsuffix => ?_
    rw [append_nil]
    exact find_eq_none_of_pieces h hw hsuffix
  rw [append_nil] at hs
  rw [hs]
  exact append_nil _

theorem replaceAll_of_not_mem {x : Char} {old new : List Char} (hold : x ∈ old) (h : x ∉ s) :
    replaceAll old new s = s := by
  unfold replaceAll substitute
  induction s with
  | nil => rfl
  | cons y s ih =>
    have hstart : startsWith old (y :: s) = false := by
      rw [Bool.eq_false_iff]
      intro hstart
      obtain ⟨t, ht⟩ := Option.isSome_iff_exists.mp hstart
      exact h (eq_append_of_after? ht ▸ mem_append_left t hold)
    rw [substituteFrom, hstart]
    exact congrArg _ (ih fun hmem => h (mem_cons_of_mem y hmem))

/-- Putting in a text for one that starts earlier makes a text later. -/
theorem replaceAll_cases {a b : Char} (hlt : a < b) (old new s : List Char) :
    (¬ a :: old <:+: s ∧ replaceAll (a :: old) (b :: new) s = s) ∨
      (a :: old <:+: s ∧ s < replaceAll (a :: old) (b :: new) s) := by
  obtain ⟨find, hfind⟩ : ∃ find : Recogniser (List Char), find = fun s =>
      if startsWith (a :: old) s then some (b :: new, (a :: old).length) else none := ⟨_, rfl⟩
  have hreplace : replaceAll (a :: old) (b :: new) s = (pieces find s).flatMap (Sum.elim List.singleton id) := by
    rw [hfind]
    exact substituteFrom_eq_pieces _ 0 s
  have hsome : ∀ t put n, find t = some (put, n) → put = b :: new ∧ n = (a :: old).length ∧ a :: old <+: t := by
    intro t put n h
    rw [hfind] at h
    dsimp only at h
    split at h
    · next hstart =>
      obtain ⟨rest, hrest⟩ := isSome_iff_exists.mp hstart
      obtain ⟨rfl, rfl⟩ := Prod.mk.inj (Option.some.inj h)
      exact ⟨rfl, rfl, rest, (eq_append_of_after? hrest).symm⟩
    · cases h
  have htakes : Takes find fun _ => a :: old :=
    fun t put n h => ⟨cons_ne_nil _ _, (hsome t put n h).2⟩
  have hs := htakes.flatMap_pieces s
  by_cases hfound : ∃ put, .inr put ∈ pieces find s
  · refine .inr ⟨hfound.elim fun put h => htakes.infix_of_find h, ?_⟩
    rw [hreplace]
    conv_lhs => rw [← hs]
    have hlater : ∀ put, .inr put ∈ pieces find s → Later (a :: old) put := by
      intro put hput
      obtain ⟨t, n, -, h⟩ := htakes.exists_find hput
      exact ⟨a, b, old, new, hlt, rfl, (hsome t put n h).1⟩
    exact flatMap_lt_flatMap _ _ (fun put h => .inr (hlater put h)) (hfound.imp fun put h => ⟨h, hlater put h⟩)
  · refine .inl ⟨?_, ?_⟩
    · intro hinfix
      obtain ⟨t, ⟨rest, rfl⟩, ht⟩ := infix_iff_prefix_suffix.mp hinfix
      have hnone := find_eq_none_of_pieces (fun put h => hfound ⟨put, h⟩) (by simp) ht
      rw [hfind] at hnone
      dsimp only at hnone
      rw [startsWith, after?_append] at hnone
      cases hnone
    · rw [hreplace, pieces_eq_map fun put h => hfound ⟨put, h⟩, flatMap_map]
      exact flatMap_singleton' s

end QmlScript.Text
