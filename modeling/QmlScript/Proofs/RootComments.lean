import QmlScript.Proofs.Faults

/-!
# Comments in front of a root

A comment in front of a source documents its root, and a comment inside of the root may document it, too. Of the
other declarations the one that is finished first gets the documentation that waits, which is not the one behind the
comment if something is declared inside of that. A source without documentation in comments gives none.
-/

namespace QmlScript.Grammar

open List Text

variable {s rest comment : List Char} {c c' : Cursor} {n n' m : Notes} {doc text : String}

theorem lineTail_append (hbreak : '\n' ∉ s) (hlast : s.getLast? ≠ some '\\') (rest : List Char) :
    lineTail (s ++ '\n' :: rest) = s.length := by
  induction s with
  | nil => rfl
  | cons c s ih =>
    rw [mem_cons, not_or] at hbreak
    have hjoined : ∀ t, c = '\\' → s ++ '\n' :: rest ≠ '\n' :: t := by
      rintro t rfl heq
      cases s with
      | nil => simp at hlast
      | cons d s => exact hbreak.2 (by simp_all)
    have hs : s.getLast? ≠ some '\\' := fun h => hlast (by simp [getLast?_cons, h])
    rw [cons_append, lineTail, ih hbreak.2 hs, length_cons]
    · exact fun t hc ht => hjoined t hc ht
    · exact fun hc => hbreak.1 hc.symm

theorem blockTail?_append (h : ¬ ['*', '/'] <:+: s) (rest : List Char) :
    blockTail? (s ++ '*' :: '/' :: rest) = some (s.length + 2) := by
  induction s with
  | nil => rfl
  | cons c s ih =>
    rw [cons_append, blockTail?, ih fun hs => h (hs.trans (suffix_cons c s).isInfix)]
    · rfl
    · rintro t rfl ht
      cases s with
      | nil => cases ht
      | cons d s =>
        cases ht
        exact h ⟨[], s, rfl⟩

/-- A comment in front of something, and the documentation in it. -/
inductive Documents : List Char → String → Prop
  | line {s : List Char} (hbreak : '\n' ∉ s) (hlast : s.getLast? ≠ some '\\') (hfront : s.head? ≠ some '<') :
    Documents ("///".toList ++ s ++ ['\n']) (String.ofList (trim s))
  | block {s : List Char} (hend : ¬ ['*', '/'] <:+: '*' :: s) :
    Documents ("/**".toList ++ s ++ ['*', '/']) (String.ofList (trim s))

/-- A text in which no comment is documentation. -/
def Silent (s : List Char) : Prop := ¬ "///".toList <:+: s ∧ ¬ "/**".toList <:+: s

theorem Silent.behind {front : List Char} (hs : Silent s) (hfront : '/' ∉ front) : Silent (front ++ s) := by
  induction front with
  | nil => exact hs
  | cons x front ih =>
    rw [mem_cons, not_or] at hfront
    have ih := ih hfront.2
    rw [cons_append]
    exact ⟨by simpa [infix_cons_iff, hfront.1] using ih.1, by simpa [infix_cons_iff, hfront.1] using ih.2⟩

theorem Documents.exists_size (h : Documents comment doc) (hdoc : doc ≠ "") (rest : List Char) : ∃ size,
    (blockComment? (comment ++ rest) <|> lineComment? (comment ++ rest)) = some size ∧
      Notes.comment {} ((comment ++ rest).take size) 0 = { pending := some doc } ∧
      (Silent rest → Silent ((comment ++ rest).drop size)) := by
  cases h with
  | @line s hbreak hlast hfront =>
    have htail := lineTail_append hbreak hlast rest
    have htake : ("///".toList ++ s ++ ['\n'] ++ rest).take (s.length + 3) = "///".toList ++ s := by simp
    have hbackward : startsWith "///<".toList ("///".toList ++ s) = false := by
      cases s <;> simp_all [startsWith, after?]
      grind
    refine ⟨s.length + 3, by simp [blockComment?, lineComment?, lineTail, htail], ?_, fun hs => ?_⟩
    · rw [htake, Notes.comment, hbackward]
      simp [startsWith, after?, Notes.document, hdoc]
    · have hline : Silent (['\n'] ++ rest) := hs.behind (by decide)
      simpa using hline
  | @block s hend =>
    have htail := blockTail?_append hend rest
    have htake : ("/**".toList ++ s ++ ['*', '/'] ++ rest).take (s.length + 5) = "/**".toList ++ s ++ ['*', '/'] :=
      take_left' (by simp)
    have htext : blockText ("/**".toList ++ s ++ ['*', '/']) = s := by simp [blockText]
    refine ⟨s.length + 5, by simp_all [blockComment?], ?_, fun hs => ?_⟩
    · rw [htake, Notes.comment, htext]
      simp [startsWith, after?, Notes.document, hdoc]
    · rwa [drop_left' (by simp)]

theorem Cursor.ahead_advance (c : Cursor) (k : Nat) : (c.advance k).ahead = c.ahead.drop k := by
  induction k generalizing c with
  | zero => rfl
  | succ k ih =>
    rw [Cursor.advance]
    cases hahead : c.ahead with
    | nil => simp [hahead]
    | cons x t => exact ih _

theorem skip_documented (h : Documents comment doc) (hdoc : doc ≠ "") (rest : List Char) : ∃ bound c,
    skip (.ofText (comment ++ rest)) {} = skipUpTo bound c { pending := some doc } ∧
      (Silent rest → Silent c.ahead) := by
  obtain ⟨size, hsize, hnoted, hsilent⟩ := h.exists_size hdoc rest
  have hgap : skipGap (.ofText (comment ++ rest)) = .ofText (comment ++ rest) := by
    cases h <;> rfl
  refine ⟨(comment ++ rest).length, (Cursor.ofText (comment ++ rest)).advance size, ?_, ?_⟩
  · rw [skip, skipUpTo]
    simp only [hgap]
    rw [show (Cursor.ofText (comment ++ rest)).ahead = comment ++ rest from rfl, hsize, ← hnoted]
    rfl
  · rwa [Cursor.ahead_advance]

theorem Notes.comment_of_silent (hs : Silent s) (hc : c.In s) (n : Notes) (size : Nat) :
    n.comment (c.ahead.take size) c.offset = { n with root := n.root <|> n.pending } := by
  have hpart : ∀ {w : List Char}, startsWith w (c.ahead.take size) = true → w <:+: s := by
    intro w hw
    obtain ⟨front, htext, -⟩ := hc
    obtain ⟨t, ht⟩ := startsWith_iff.mp hw
    refine ⟨front, t ++ c.ahead.drop size, ?_⟩
    rw [htext, append_assoc, ← append_assoc w, ← ht, take_append_drop]
  have hbackward : ¬ startsWith "///<".toList (c.ahead.take size) = true := fun h =>
    hs.1 (.trans ⟨[], ['<'], rfl⟩ (hpart h))
  rw [Notes.comment, if_neg hbackward, if_neg fun h => hs.1 (hpart h), if_neg fun h => hs.2 (hpart h)]

/-- Notes behind a silent text: the declaration finished first took what waited. -/
structure Passes (n m : Notes) : Prop where
  root : (m.root <|> m.pending) = (n.root <|> n.pending)
  docs : m.marks = n.marks ∧ m.pending = n.pending ∧ m.docs = n.docs ∨
    n.marks < m.marks ∧ m.pending = none ∧ m.docs = n.declared.docs

theorem Passes.declared (h : Passes n m) :
    n.marks < m.declared.marks ∧ m.declared.pending = none ∧ m.declared.docs = n.declared.docs := by
  rcases h.docs with ⟨hmarks, hpending, hdocs⟩ | ⟨hmarks, hpending, hdocs⟩
  · exact ⟨by simp [Notes.declared, hmarks], rfl, by simp only [Notes.declared, hmarks, hpending, hdocs]⟩
  · refine ⟨Nat.lt_succ_of_lt hmarks, rfl, ?_⟩
    rw [← hdocs]
    simp only [Notes.declared, hpending]

/-- Where nothing waits, nothing gets documentation. -/
theorem Passes.idle (h : Passes n m) (hn : n.pending = none) : m.root = n.root ∧ m.docs = n.docs := by
  obtain ⟨hroot, ⟨-, hpending, hdocs⟩ | ⟨-, hpending, hdocs⟩⟩ := h
  · exact ⟨by simpa [hpending, hn] using hroot, hdocs⟩
  · exact ⟨by simpa [hpending, hn] using hroot, by simpa [Notes.declared, hn] using hdocs⟩

theorem Noted.passes (hs : Silent s) (h : Noted s n m) : Passes n m := by
  induction h with
  | same => exact ⟨rfl, .inl ⟨rfl, rfl, rfl⟩⟩
  | @comment m c size _ hc _ ih =>
    rw [m.comment_of_silent hs hc]
    refine ⟨?_, ih.docs⟩
    rw [← ih.root]
    cases m.root <;> cases m.pending <;> rfl
  | @declared m _ ih =>
    refine ⟨?_, .inr ih.declared⟩
    rw [← ih.root]
    simp [Notes.declared]
  | fault _ fault ih => exact ⟨ih.root, ih.docs⟩

/-- A place is one of a text of blanks and what is ahead of it. -/
theorem Silent.exists_in (hs : Silent c.ahead) : ∃ s, c.In s ∧ Silent s :=
  ⟨replicate c.offset ' ' ++ c.ahead, ⟨_, rfl, length_replicate.symm⟩, hs.behind (by simp [mem_replicate])⟩

theorem component_noted {bound : Nat} {tree : Marked} (hin : (skip c n).1.In s)
    (h : componentUpTo bound c n = (.done tree c', n')) :
    ∃ m type body, (c'.In s ∧ Noted s (skip c n).2 m) ∧ n' = m.declared ∧ tree = .component m.marks type body := by
  refine Explains.closed.component_done (I := fun d m => d.In s ∧ Noted s (skip c n).2 m)
    (fun {α p d d' m m' a} hp hrun hI => ?_) hin.offset_le ⟨hin, .same⟩ h
  obtain ⟨reply, k, hrun', hnotes, -, hreply⟩ := hp d m hI.1
  obtain ⟨rfl, rfl⟩ := Prod.mk.inj (hrun'.symm.trans hrun)
  exact ⟨hreply.1, hI.2.trans hnotes⟩

/-- Documentation that waits in front of a component, at any depth, is that of the declaration that is finished first:
of the component only if nothing is finished inside of it. -/
theorem component_first_documented {bound : Nat} {tree : Marked} (hs : Silent (skip c n).1.ahead)
    (h : componentUpTo bound c n = (.done tree c', n')) :
    n'.docs = (skip c n).2.declared.docs ∧
      ∃ mark type body, tree = .component mark type body ∧ n'.marks = mark + 1 := by
  obtain ⟨s, hin, hs⟩ := hs.exists_in
  obtain ⟨m, type, body, ⟨-, hnoted⟩, rfl, rfl⟩ := component_noted hin h
  exact ⟨(hnoted.passes hs).declared.2.2, _, _, _, rfl, rfl⟩

/-- A source without documentation in comments has none in its tree. -/
theorem parse_silent (hs : Silent text.toList) {tree : Tree} (h : (parse {} text).result = .ok tree) :
    tree = tree.undocumented.mapDoc fun _ => none := by
  obtain ⟨marked, next, n, hsource, rfl⟩ := exists_source_of_parse h
  obtain ⟨_, _, hrun, hnotes, -, -⟩ := Explains.source _ (History.start {}) (.start text.toList)
  obtain ⟨-, rfl⟩ := Prod.mk.inj (hrun.symm.trans hsource)
  obtain ⟨hroot, hdocs⟩ := (hnotes.passes hs).idle rfl
  rw [Notes.undocumented_resolve, Node.undocumented, Node.mapDoc_mapDoc, Notes.resolve, hroot, hdocs]
  cases marked <;> simp [Node.mapDoc, Node.setDoc, History.start]

theorem source_first_documented {tree : Marked} (hs : Silent s) (hin : (skip c n).1.In s)
    (h : source c n = (.done tree c', n')) :
    n'.docs = (skip c n).2.declared.docs ∧ n'.root = (skip c n).2.declared.root := by
  obtain ⟨d, _, hcomponent, rfl⟩ := exists_component_of_source h
  obtain ⟨m, type, body, ⟨hd, hnoted⟩, rfl, rfl⟩ := component_noted hin hcomponent
  obtain ⟨hroot, hdocs⟩ := ((Noted.skip hd m.declared).passes hs).idle rfl
  have hfirst := hnoted.passes hs
  exact ⟨hdocs.trans hfirst.declared.2.2, hroot.trans hfirst.root⟩

/-- A root carries the documentation of a comment in front of it. If no other comment is documentation, no other
declaration carries any but the one that is finished first, which has the mark 0. -/
theorem root_documented (h : Documents comment doc) (hdoc : doc ≠ "") (htext : text.toList = comment ++ rest)
    {tree : Tree} (hparse : (parse {} text).result = .ok tree) :
    (∃ type body, tree = .component (some doc) type body) ∧
      (Silent rest → ∃ marked next notes, source (.ofText text.toList) (History.start {}) = (.done marked next, notes) ∧
        tree = (marked.mapDoc fun mark => if mark = 0 then some doc else none).setDoc (some doc)) := by
  obtain ⟨bound, c, hskip, hsilent⟩ := skip_documented h hdoc rest
  have hstart : skip (.ofText text.toList) (History.start {}) = skipUpTo bound c { pending := some doc } := by
    rw [htext]
    exact hskip
  constructor
  · obtain ⟨_, n, _, hrun, -, -, hn⟩ := Oblivious.skipUpTo (lasting_rooted doc) bound c
      (n := { pending := some doc }) ⟨rfl, .inr ⟨rfl, rfl⟩⟩
    refine parse_noted ?_ hparse
    rw [hstart, hrun]
    exact hn
  · intro hrest
    obtain ⟨s, hin, hs⟩ := (hsilent hrest).exists_in
    obtain ⟨marked, next, notes, hsource, rfl⟩ := exists_source_of_parse hparse
    have hplace : (skip (.ofText text.toList) (History.start {})).1.In s := by
      rw [hstart]
      exact hin.skipUpTo bound _
    have hwaits := (Noted.skipUpTo hin bound { pending := some doc }).passes hs
    obtain ⟨hdocs, hroot⟩ := source_first_documented hs hplace hsource
    rw [hstart] at hdocs hroot
    have hlookup : (fun mark => [(0, doc)].lookup mark) = fun mark => if mark = 0 then some doc else none := by
      funext mark
      cases mark <;> rfl
    refine ⟨marked, next, notes, hsource, ?_⟩
    rw [Notes.resolve, hdocs.trans hwaits.declared.2.2, hroot.trans hwaits.root, ← hlookup]
    rfl

theorem root_documented_starred :
    Documents "/** * a **/".toList "* a *" ∧
      rootDocumentation (parse {} "/** * a **/Item \x7b /// b\n property int c; \x7d").result =
        some (some "* a *") ∧
      Silent "Item \x7b Rect \x7b \x7d \x7d".toList ∧
      ∃ marked next notes, source (.ofText "/** * a **/Item \x7b Rect \x7b \x7d \x7d".toList) (History.start {}) =
          (.done marked next, notes) ∧
        (parse {} "/** * a **/Item \x7b Rect \x7b \x7d \x7d").result =
          .ok ((marked.mapDoc fun mark => if mark = 0 then some "* a *" else none).setDoc (some "* a *")) := by
  have hcomment : Documents "/** * a **/".toList "* a *" := .block (s := " * a *".toList) (by decide)
  have hsilent : Silent "Item \x7b Rect \x7b \x7d \x7d".toList := ⟨by decide +kernel, by decide +kernel⟩
  have hparses : ∀ {result : Except ParseError Tree}, result.isOk = true → ∃ tree, result = .ok tree := by
    rintro (_ | tree) h
    · cases h
    · exact ⟨tree, rfl⟩
  have hok : (parse {} "/** * a **/Item \x7b /// b\n property int c; \x7d").result.isOk = true := by decide +kernel
  have hok' : (parse {} "/** * a **/Item \x7b Rect \x7b \x7d \x7d").result.isOk = true := by decide +kernel
  obtain ⟨tree, hparse⟩ := hparses hok
  obtain ⟨tree', hparse'⟩ := hparses hok'
  have htext : "/** * a **/Item \x7b /// b\n property int c; \x7d".toList =
    "/** * a **/".toList ++ "Item \x7b /// b\n property int c; \x7d".toList := by decide
  have htext' : "/** * a **/Item \x7b Rect \x7b \x7d \x7d".toList =
    "/** * a **/".toList ++ "Item \x7b Rect \x7b \x7d \x7d".toList := by decide
  have hroot := (root_documented hcomment (by decide) htext hparse).1
  have hfirst := (root_documented hcomment (by decide) htext' hparse').2 hsilent
  obtain ⟨type, body, rfl⟩ := hroot
  obtain ⟨marked, next, notes, hsource, rfl⟩ := hfirst
  exact ⟨hcomment, by rw [hparse]; rfl, hsilent, marked, next, notes, hsource, hparse'⟩

/-- The documentation of each part of a root. -/
def partDocumentation : Except ParseError Tree → List (Option (Option String))
  | .ok (.component _ _ body) => body.map fun part => rootDocumentation (.ok part)
  | _ => []

/-- A comment inside of a root documents the root, and a comment in front of it what is inside. -/
theorem comments_cross_braces :
    rootDocumentation (parse {} "Item \x7b /// b\n property int c; \x7d").result = some (some "b") ∧
      partDocumentation (parse {} "/// a\nItem \x7b Rect \x7b \x7d \x7d").result = [some (some "a")] := by
  decide +kernel

end QmlScript.Grammar
