import QmlScript.Proofs.Sessions

/-!
# Taking texts

`Takes` says that a parser takes a text before another one, and `Fails` that it finds nothing there. Notes may
change meanwhile, but no number is noted as unreadable. Each combinator has a law for both, and blanks before
a text never matter.
-/

namespace QmlScript.Grammar

open QmlScript.Grammar.Parser List

variable {α β ι : Type} {p q : Parser α} {f : α → Parser β} {P : α → Prop} {Q : β → Prop}
  {s t rest : List Char} {c : Cursor} {R : List Char → Prop}

/-- Before `rest` the parser takes `s` and finds something with `P`. -/
def Takes (p : Parser α) (s : List Char) (P : α → Prop) (rest : List Char) : Prop :=
  ∀ c notes, c.Faces (s ++ rest) → notes.fault = none →
    ∃ a c' notes', p c notes = (.done a c', notes') ∧ P a ∧ c'.Faces rest ∧ notes'.fault = none

/-- The parser takes the text for a tree, whatever documentation that has. -/
abbrev TakesTree (p : Parser Marked) (s : List Char) (n : Node Unit) (rest : List Char) : Prop :=
  Takes p s (·.undocumented = n) rest

def Fails (p : Parser α) (s : List Char) : Prop :=
  ∀ c notes, c.Faces s → notes.fault = none →
    ∃ offset lack notes', p c notes = (.miss offset lack, notes') ∧ notes'.fault = none

theorem Cursor.Faces.behind_gap {x : Char} (h : c.Faces (x :: s)) (hx : isGap x = true) : c.Faces s := by
  obtain ⟨gap, hgap, hat⟩ := h
  refine ⟨gap ++ [x], ?_, by simpa using hat⟩
  intro y hy
  rcases mem_append.mp hy with hy | hy
  · exact hgap y hy
  · rwa [mem_singleton.mp hy]

theorem Cursor.Faces.behind_blank (h : c.Faces (' ' :: s)) : c.Faces s := h.behind_gap (by decide)

theorem Cursor.Faces.length_le (h : c.Faces s) : s.length ≤ c.left := by
  obtain ⟨gap, -, hat⟩ := h
  rw [hat.left, length_append]
  omega

theorem Takes.behind_blank (h : Takes p s P rest) : Takes p (' ' :: s) P rest :=
  fun c notes hf hfault => h c notes hf.behind_blank hfault

theorem Fails.behind_blank (h : Fails p s) : Fails p (' ' :: s) :=
  fun c notes hf hfault => h c notes hf.behind_blank hfault

theorem Takes.mono {P' : α → Prop} (h : Takes p s P rest) (himp : ∀ a, P a → P' a) : Takes p s P' rest := by
  intro c notes hf hfault
  obtain ⟨a, c', notes', hdone, ha, hrest⟩ := h c notes hf hfault
  exact ⟨a, c', notes', hdone, himp a ha, hrest⟩

theorem takes_of_done {a : α} (h : ∀ c notes, c.Faces (s ++ rest) →
    p c notes = (.done a (c.reach rest), notes)) : Takes p s (· = a) rest :=
  fun c notes hf hfault => ⟨a, c.reach rest, notes, h c notes hf, rfl, hf.reach.faces, hfault⟩

theorem fails_of_misses (h : ∀ c notes, c.Faces s → Misses p c notes) : Fails p s := by
  intro c notes hf hfault
  obtain ⟨offset, lack, hmiss⟩ := h c notes hf
  exact ⟨offset, lack, notes, hmiss, hfault⟩

theorem takes_pure {a : α} (h : P a) : Takes (Parser.pure a) [] P rest :=
  fun c notes hf hfault => ⟨a, c, notes, rfl, h, hf, hfault⟩

theorem Takes.bind (hp : Takes p s P (t ++ rest)) (hf : ∀ a, P a → Takes (f a) t Q rest) :
    Takes (p.bind f) (s ++ t) Q rest := by
  intro c notes hfaces hfault
  rw [append_assoc] at hfaces
  obtain ⟨a, c', notes', hdone, ha, hc', hfault'⟩ := hp c notes hfaces hfault
  rw [bind_done hdone]
  exact hf a ha c' notes' hc' hfault'

theorem Takes.bind_eq {a : α} (hp : Takes p s (· = a) (t ++ rest)) (h : Takes (f a) t Q rest) :
    Takes (p.bind f) (s ++ t) Q rest := hp.bind fun _ ha => ha ▸ h

theorem Takes.bind_nil (hp : Takes p s P rest) (hf : ∀ a, P a → Takes (f a) [] Q rest) : Takes (p.bind f) s Q rest := by
  have h := Takes.bind (t := []) hp hf
  rwa [append_nil] at h

theorem Fails.bind (h : Fails p s) : Fails (p.bind f) s := by
  intro c notes hf hfault
  obtain ⟨offset, lack, notes', hmiss, hfault'⟩ := h c notes hf hfault
  exact ⟨offset, lack, notes', by rw [Parser.bind, hmiss], hfault'⟩

theorem Takes.bind_fails (hp : Takes p s P t) (hf : ∀ a, P a → Fails (f a) t) : Fails (p.bind f) (s ++ t) := by
  intro c notes hfaces hfault
  obtain ⟨a, c', notes', hdone, ha, hc', hfault'⟩ := hp c notes hfaces hfault
  rw [bind_done hdone]
  exact hf a ha c' notes' hc' hfault'

theorem takes_declare : Takes declare [] (fun _ => True) rest :=
  fun c notes hf hfault => ⟨notes.marks, c, notes.declared, declare_eq c notes, trivial, hf, hfault⟩

theorem takes_finish {node : Nat → Marked} {n : Node Unit} (h : ∀ mark, (node mark).undocumented = n) :
    TakesTree (declare.bind fun mark => Parser.pure (node mark)) [] n rest :=
  takes_declare.bind_nil fun mark _ => takes_pure (h mark)

theorem Takes.required (h : Takes p s P rest) : Takes (required p) s P rest := by
  intro c notes hf hfault
  obtain ⟨a, c', notes', hdone, hrest⟩ := h c notes hf hfault
  exact ⟨a, c', notes', by rw [Parser.required, hdone], hrest⟩

theorem Takes.orElse (h : Takes p s P rest) : Takes (p.orElse q) s P rest := by
  intro c notes hf hfault
  obtain ⟨a, c', notes', hdone, hrest⟩ := h c notes hf hfault
  exact ⟨a, c', notes', orElse_done hdone, hrest⟩

theorem Takes.choice {ps : List (Parser α)} (h : Takes p s P rest) : Takes (choice (p :: ps)) s P rest := by
  intro c notes hf hfault
  obtain ⟨a, c', notes', hdone, hrest⟩ := h c notes hf hfault
  exact ⟨a, c', notes', choice_done hdone, hrest⟩

theorem Fails.choice {ps : List (Parser α)} (hp : Fails p (s ++ rest)) (h : Takes (choice ps) s P rest) :
    Takes (choice (p :: ps)) s P rest := by
  intro c notes hf hfault
  obtain ⟨offset, lack, notes', hmiss, hfault'⟩ := hp c notes hf hfault
  obtain ⟨a, c', notes'', hdone, hrest⟩ := h c notes' hf hfault'
  exact ⟨a, c', notes'', choice_tail hmiss hdone rfl, hrest⟩

theorem Fails.orElse (hp : Fails p (s ++ rest)) (hq : Takes q s P rest) : Takes (p.orElse q) s P rest := by
  have hlast : Takes (Parser.choice [q]) s P rest := hq
  exact Fails.choice hp hlast

theorem Fails.or (hp : Fails p s) (hq : Fails q s) : Fails (p.orElse q) s := by
  intro c notes hf hfault
  obtain ⟨offset, lack, notes', hmiss, hfault'⟩ := hp c notes hf hfault
  obtain ⟨offset', lack', notes'', hmiss', hfault''⟩ := hq c notes' hf hfault'
  simp only [Parser.orElse, hmiss, hmiss']
  split
  · exact ⟨_, _, notes'', rfl, hfault''⟩
  · exact ⟨_, _, notes'', rfl, hfault''⟩

theorem Takes.optional (h : Takes p s P rest) : Takes p.optional s (fun o => ∃ a, o = some a ∧ P a) rest := by
  intro c notes hf hfault
  obtain ⟨a, c', notes', hdone, ha, hrest⟩ := h c notes hf hfault
  exact ⟨some a, c', notes', by rw [Parser.optional, hdone], ⟨a, rfl, ha⟩, hrest⟩

theorem Fails.optional (h : Fails p rest) : Takes p.optional [] (· = none) rest := by
  intro c notes hf hfault
  obtain ⟨offset, lack, notes', hmiss, hfault'⟩ := h c notes hf hfault
  exact ⟨none, c, notes', by rw [Parser.optional, hmiss], rfl, hf, hfault'⟩

theorem Fails.many (h : Fails p rest) : Takes p.many [] (· = []) rest := by
  intro c notes hf hfault
  obtain ⟨offset, lack, notes', hmiss, hfault'⟩ := h c notes hf hfault
  exact ⟨[], c, notes', by simp only [Parser.many, manyUpTo, hmiss], rfl, hf, hfault'⟩

/-- A list of items is taken one by one. `R` says what may follow an item. -/
theorem takes_many {chars : ι → List Char} {P : ι → α → Prop} {items : List ι}
    (hitem : ∀ i ∈ items, ∀ t, R t → Takes p (chars i) (P i) t) (hne : ∀ i ∈ items, chars i ≠ [])
    (hnext : ∀ i ∈ items, ∀ t, R (chars i ++ t)) (hrest : R rest) (hend : Fails p rest) :
    Takes p.many (items.flatMap chars) (List.Forall₂ P items) rest := by
  -- the rounds of the loop are bounded by the text that is left
  have hrounds : ∀ n, items.length < n → Takes (p.manyUpTo n) (items.flatMap chars) (List.Forall₂ P items) rest := by
    clear hne
    induction items with
    | nil =>
      rintro (_ | n) hn c notes hf hfault
      · simp at hn
      · obtain ⟨offset, lack, notes', hmiss, hfault'⟩ := hend c notes hf hfault
        exact ⟨[], c, notes', by simp only [manyUpTo, hmiss], .nil, hf, hfault'⟩
    | cons i items ih =>
      rintro (_ | n) hn c notes hf hfault
      · simp at hn
      · have hfollow : R (items.flatMap chars ++ rest) := by
          cases items with
          | nil => exact hrest
          | cons j items =>
            rw [flatMap_cons, append_assoc]
            exact hnext j (by simp) _
        rw [flatMap_cons, append_assoc] at hf
        obtain ⟨a, c', notes', hdone, ha, hc', hfault'⟩ := hitem i (by simp) _ hfollow c notes hf hfault
        obtain ⟨as, c'', notes'', hmany, has, hc'', hfault''⟩ :=
          ih (fun j hj => hitem j (by simp [hj])) (fun j hj => hnext j (by simp [hj])) n
            (by simpa using hn) c' notes' hc' hfault'
        exact ⟨a :: as, c'', notes'', manyUpTo_cons hdone hmany, .cons ha has, hc'', hfault''⟩
  have hlength := length_le_flatMap hne
  intro c notes hf hfault
  have hleft := hf.length_le
  rw [length_append] at hleft
  exact hrounds (c.left + 1) (by omega) c notes hf hfault

theorem takes_sepBy {chars : ι → List Char} {value : ι → α} {first : ι}
    {others : List ι} {sep : Parser Unit} {comma : List Char}
    (hitem : ∀ i ∈ first :: others, ∀ t, R t → Takes p (chars i) (· = value i) t)
    (hsep : ∀ t, Takes sep comma (fun _ => True) t) (hne : comma ≠ []) (hnext : ∀ t, R (comma ++ t))
    (hrest : R rest) (hend : Fails sep rest) :
    Takes (p.sepBy sep) (chars first ++ others.flatMap fun i => comma ++ chars i)
      (· = (first :: others).map value) rest := by
  have hfirst : R ((others.flatMap fun i => comma ++ chars i) ++ rest) := by
    cases others with
    | nil => exact hrest
    | cons i others =>
      rw [flatMap_cons, append_assoc, append_assoc]
      exact hnext _
  have hmany : Takes (many (sep.bind fun _ => p)) (others.flatMap fun i => comma ++ chars i)
      (List.Forall₂ (fun i a => a = value i) others) rest := by
    refine takes_many (R := R) ?_ ?_ ?_ hrest hend.bind
    · intro i hi t ht
      exact (hsep _).bind fun _ _ => hitem i (by simp [hi]) t ht
    · intro i _
      simp [hne]
    · intro i _ t
      rw [append_assoc]
      exact hnext _
  refine (hitem first (by simp) _ hfirst).bind_eq ?_
  refine hmany.bind_nil fun as has => takes_pure ?_
  have heq : as = others.map value := by
    clear hmany hfirst hitem
    induction has with
    | nil => rfl
    | cons ha _ ih => rw [ha, ih, map_cons]
  rw [heq, map_cons]

end QmlScript.Grammar
