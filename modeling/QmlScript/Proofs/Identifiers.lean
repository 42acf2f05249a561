import QmlScript.Proofs.References

/-!
# Names in a value

The paths of a value and the names they start with, read off the text.
-/

namespace QmlScript.Script

open List Text

open Text (isBlank isWordChar)

variable {back s t : List Char}
variable {gap word : List Char} {bound : Nat}

def endsWord (back : List Char) : Bool := (back.dropWhile isBlank).head?.any isWordChar

/-- Whether behind a reversed text comes the next segment of a path. -/
def continuesPath (back : List Char) : Bool :=
  match back.dropWhile isBlank with
  | '.' :: back => endsWord back
  | _ => false

/-- Whether a path starts between a reversed text and the text ahead. -/
def startsPath (back s : List Char) : Bool :=
  s.head?.any isWordChar && !back.head?.any isWordChar && !continuesPath back

def headName (s : List Char) : String :=
  String.ofList (s.takeWhile isWordChar ++ (s.dropWhile isWordChar).takeWhile isBlank)

def startNames : (back s : List Char) → List String
  | _, [] => []
  | back, c :: s =>
    if startsPath back (c :: s) then headName (c :: s) :: startNames (c :: back) s
    else startNames (c :: back) s

theorem mem_startNames {name : String} :
    name ∈ startNames back s ↔ ∃ before rest, s = before ++ rest ∧
      startsPath (before.reverse ++ back) rest = true ∧ name = headName rest := by
  induction s generalizing back with
  | nil =>
    refine iff_of_false not_mem_nil ?_
    rintro ⟨before, rest, hs, hstart, -⟩
    obtain ⟨-, rfl⟩ := append_eq_nil_iff.mp hs.symm
    simp [startsPath] at hstart
  | cons c s ih =>
    have hnext : name ∈ startNames (c :: back) s ↔ ∃ before rest, c :: s = c :: before ++ rest ∧
        startsPath ((c :: before).reverse ++ back) rest = true ∧ name = headName rest := by
      simpa using ih
    rw [startNames]
    constructor
    · intro h
      by_cases hstart : startsPath back (c :: s) = true
      · rw [if_pos hstart] at h
        rcases mem_cons.mp h with rfl | h
        · exact ⟨[], c :: s, rfl, hstart, rfl⟩
        · obtain ⟨before, rest, hnow⟩ := hnext.mp h
          exact ⟨c :: before, rest, hnow⟩
      · rw [if_neg hstart] at h
        obtain ⟨before, rest, hnow⟩ := hnext.mp h
        exact ⟨c :: before, rest, hnow⟩
    · rintro ⟨before, rest, hs, hstart, hname⟩
      cases before with
      | nil =>
        obtain rfl : c :: s = rest := hs
        have hstart : startsPath back (c :: s) = true := hstart
        rw [if_pos hstart, hname]
        exact mem_cons_self
      | cons b before =>
        obtain rfl : c = b := (List.cons.inj hs).1
        have h := hnext.mpr ⟨before, rest, hs, hstart, hname⟩
        split
        · exact mem_cons_of_mem _ h
        · exact h

/-! Stretches in which no path starts -/

theorem startNames_skip {c : Char} (h : startsPath back (c :: s) = false) :
    startNames back (c :: s) = startNames (c :: back) s := by
  rw [startNames, h, if_neg Bool.false_ne_true]

theorem startNames_gap (h : ∀ c ∈ gap, isWordChar c = false) :
    startNames back (gap ++ s) = startNames (gap.reverse ++ back) s := by
  induction gap generalizing back with
  | nil => rfl
  | cons c gap ih =>
    have hc : startsPath back (c :: (gap ++ s)) = false := by simp [startsPath, h c (by simp)]
    rw [cons_append, startNames_skip hc, ih fun d hd => h d (by simp [hd])]
    simp

theorem startNames_word (h : ∀ c ∈ word, isWordChar c = true)
    (hback : back.head?.any isWordChar = true ∨ continuesPath back = true) :
    startNames back (word ++ s) = startNames (word.reverse ++ back) s := by
  induction word generalizing back with
  | nil => rfl
  | cons c word ih =>
    have hc : startsPath back (c :: (word ++ s)) = false := by
      rcases hback with hback | hback <;> simp [startsPath, hback]
    rw [cons_append, startNames_skip hc, ih (fun d hd => h d (by simp [hd])) (.inl (by simp [h c]))]
    simp

theorem dropWhile_blank_append (h : ∀ c ∈ gap, isBlank c = true) :
    (gap.reverse ++ back).dropWhile isBlank = back.dropWhile isBlank :=
  dropWhile_append_of_pos fun c hc => h c (mem_reverse.mp hc)

theorem endsWord_gap (h : ∀ c ∈ gap, isBlank c = true) : endsWord (gap.reverse ++ back) = endsWord back := by
  rw [endsWord, dropWhile_blank_append h, endsWord]

theorem endsWord_word (hne : word ≠ []) (h : ∀ c ∈ word, isWordChar c = true) :
    endsWord (word.reverse ++ back) = true := by
  obtain ⟨w, c, rfl⟩ := eq_nil_or_concat word |>.resolve_left hne
  have hc : isWordChar c = true := h c (by simp)
  simp [endsWord, hc, isBlank_of_isWordChar hc]

theorem continuesPath_dot (h : ∀ c ∈ gap, isBlank c = true) :
    continuesPath (gap.reverse ++ '.' :: back) = endsWord back := by
  rw [continuesPath, dropWhile_blank_append h]
  rfl

/-- Behind a word and its blanks, with no more of either ahead. -/
structure PathEnd (back s : List Char) : Prop where
  word : endsWord back = true
  blank : ∀ c ∈ s.head?, isBlank c = false
  apart : back.head?.any isWordChar = true → ∀ c ∈ s.head?, isWordChar c = false

def Fresh (back s : List Char) : Prop :=
  ∀ gap rest, s = gap ++ rest → (∀ c ∈ gap, isWordChar c = false) → rest.head?.any isWordChar = true →
    startsPath (gap.reverse ++ back) rest = true

/-- A text cut into a word, the blanks behind it and the rest. -/
structure Segment (s word gap rest : List Char) : Prop where
  eq : s = word ++ (gap ++ rest)
  ne : word ≠ []
  letters : ∀ c ∈ word, isWordChar c = true
  blanks : ∀ c ∈ gap, isBlank c = true
  blank : ∀ c ∈ rest.head?, isBlank c = false
  apart : gap = [] → ∀ c ∈ rest.head?, isWordChar c = false

theorem segment_takeWhile (h : s.takeWhile isWordChar ≠ []) :
    Segment s (s.takeWhile isWordChar) ((s.dropWhile isWordChar).takeWhile isBlank)
      ((s.dropWhile isWordChar).dropWhile isBlank) where
  eq := by rw [takeWhile_append_dropWhile, takeWhile_append_dropWhile]
  ne := h
  letters := fun c hc => mem_takeWhile_imp hc
  blanks := fun c hc => mem_takeWhile_imp hc
  blank := fun c hc => head?_dropWhile_of hc
  apart := by
    intro hnil c hc
    have hrest := takeWhile_append_dropWhile (p := isBlank) (l := s.dropWhile isWordChar)
    rw [hnil, nil_append] at hrest
    exact head?_dropWhile_of (hrest ▸ hc)

theorem Segment.pathEnd {rest : List Char} (h : Segment s word gap rest) (back : List Char) :
    PathEnd (gap.reverse ++ (word.reverse ++ back)) rest := by
  refine ⟨by rw [endsWord_gap h.blanks]; exact endsWord_word h.ne h.letters, h.blank, fun hback => h.apart ?_⟩
  -- a blank in between would be the last character behind
  rcases eq_nil_or_concat gap with hnil | ⟨front, b, rfl⟩
  · exact hnil
  · have hb : isBlank b = true := h.blanks b (by simp)
    simp [isWordChar_of_isBlank hb] at hback

theorem pathTail_succ (bound : Nat) (s : List Char) :
    pathTail (bound + 1) ('.' :: s) =
      if ((s.dropWhile isBlank).takeWhile isWordChar).isEmpty then 0
      else 1 + (s.takeWhile isBlank).length + ((s.dropWhile isBlank).takeWhile isWordChar).length +
        (((s.dropWhile isBlank).dropWhile isWordChar).takeWhile isBlank).length +
        pathTail bound (((s.dropWhile isBlank).dropWhile isWordChar).dropWhile isBlank) := by
  simp only [pathTail, drop_length_takeWhile]

theorem blank_of_endsWord_append {v : List Char} (hv : ∀ c ∈ v, isWordChar c = false)
    (h : endsWord (v ++ back) = true) : ∀ c ∈ v, isBlank c = true := by
  induction v with
  | nil => simp
  | cons c v ih =>
    by_cases hc : isBlank c = true
    · have hrest : endsWord (v ++ back) = true := by simpa [endsWord, hc] using h
      simpa [hc] using ih (fun d hd => hv d (by simp [hd])) hrest
    · simp [endsWord, hc, hv c] at h

theorem continuesPath_of_not_word (h : ∀ c ∈ back, isWordChar c = false) : continuesPath back = false := by
  have hends : ∀ t, (∀ c ∈ t, isWordChar c = false) → endsWord t = false := by
    intro t ht
    rw [endsWord]
    cases hhead : (t.dropWhile isBlank).head? with
    | none => rfl
    | some c => exact ht c ((dropWhile_sublist _).mem (mem_of_head? hhead))
  rw [continuesPath]
  split
  · next rest heq =>
    refine hends rest fun c hc => h c ((dropWhile_sublist isBlank).mem ?_)
    rw [heq]
    exact mem_cons_of_mem _ hc
  · rfl

theorem exists_of_continuesPath_append {v : List Char} (hv : ∀ c ∈ v, isWordChar c = false)
    (hback : endsWord back = true) (h : continuesPath (v ++ back) = true) :
    ∃ gap gap', v = gap ++ '.' :: gap' ∧ (∀ c ∈ gap, isBlank c = true) ∧ ∀ c ∈ gap', isBlank c = true := by
  induction v with
  | nil =>
    rw [endsWord] at hback
    rw [nil_append, continuesPath] at h
    split at h
    · next heq =>
      rw [heq] at hback
      exact absurd (show isWordChar '.' = true from hback) (by decide)
    · exact absurd h Bool.false_ne_true
  | cons c v ih =>
    have hv' : ∀ d ∈ v, isWordChar d = false := fun d hd => hv d (by simp [hd])
    by_cases hc : isBlank c = true
    · have hrest : continuesPath (v ++ back) = true := by simpa [continuesPath, hc] using h
      obtain ⟨gap, gap', rfl, hgap, hgap'⟩ := ih hv' hrest
      exact ⟨c :: gap, gap', rfl, by simpa [hc] using hgap, hgap'⟩
    · by_cases hdot : c = '.'
      · subst hdot
        exact ⟨[], v, rfl, by simp, blank_of_endsWord_append hv' h⟩
      · simp [continuesPath, hc, hdot] at h

/-- Behind the last segment, the next word starts a path of its own. -/
theorem PathEnd.fresh (h : PathEnd back s) (htail : pathTail (bound + 1) s = 0) : Fresh back s := by
  rintro gap rest rfl hgap hrest
  obtain ⟨w, hw, hword⟩ := (Option.any_eq_true _ _).mp hrest
  have hlast : (gap.reverse ++ back).head?.any isWordChar = false := by
    rcases eq_nil_or_concat gap with rfl | ⟨front, c, rfl⟩
    · by_contra hback
      have hnot := h.apart (by simpa using hback) w hw
      rw [hword] at hnot
      exact Bool.false_ne_true hnot.symm
    · simp [hgap c]
  have hcont : continuesPath (gap.reverse ++ back) = false := by
    by_contra hcont
    have hgap' : ∀ c ∈ gap.reverse, isWordChar c = false := fun c hc => hgap c (mem_reverse.mp hc)
    obtain ⟨u, v, huv, hu, hv⟩ := exists_of_continuesPath_append hgap' h.word (by simpa using hcont)
    obtain rfl : gap = v.reverse ++ '.' :: u.reverse := by
      rw [← reverse_reverse gap, huv]
      simp
    rcases eq_nil_or_concat v with rfl | ⟨v, c, rfl⟩
    · obtain ⟨rest, rfl⟩ : ∃ tail, rest = w :: tail := by
        cases rest <;> simp_all
      have hblank : isBlank w = false := isBlank_of_isWordChar hword
      have hskip : (u.reverse ++ w :: rest).dropWhile isBlank = w :: rest := by
        rw [dropWhile_blank_append hu]
        simp [hblank]
      have hempty : ((w :: rest).takeWhile isWordChar).isEmpty = false := by simp [hword]
      have hzero : pathTail (bound + 1) ('.' :: (u.reverse ++ w :: rest)) = 0 := htail
      rw [pathTail_succ, hskip, if_neg (by simp [hempty])] at hzero
      omega
    · have hc := h.blank c (by simp)
      rw [hv c (by simp)] at hc
      exact Bool.false_ne_true hc.symm
  rw [startsPath, hrest, hlast, hcont]
  rfl

theorem exists_segment_of_pathTail (h : pathTail (bound + 1) s ≠ 0) :
    ∃ start word gap rest, s = '.' :: (start ++ (word ++ (gap ++ rest))) ∧ (∀ c ∈ start, isBlank c = true) ∧
      Segment (word ++ (gap ++ rest)) word gap rest ∧
      pathTail (bound + 1) s = 1 + start.length + word.length + gap.length + pathTail bound rest := by
  obtain ⟨t, rfl⟩ : ∃ t, s = '.' :: t := by
    unfold pathTail at h
    split at h
    · exact ⟨_, rfl⟩
    · exact absurd rfl h
  rw [pathTail_succ] at h ⊢
  have hword : ¬ ((t.dropWhile isBlank).takeWhile isWordChar).isEmpty = true := fun hempty => h (if_pos hempty)
  have hseg := segment_takeWhile (s := t.dropWhile isBlank) fun hnil => hword (by rw [hnil]; rfl)
  refine ⟨t.takeWhile isBlank, _, _, _, ?_, fun c hc => mem_takeWhile_imp hc, hseg.eq ▸ hseg, if_neg hword⟩
  rw [← hseg.eq, takeWhile_append_dropWhile]

theorem startNames_pathTail (h : PathEnd back s) (hbound : s.length < bound) :
    ∃ tail rest, s = tail ++ rest ∧ pathTail bound s = tail.length ∧
      startNames back s = startNames (tail.reverse ++ back) rest ∧ Fresh (tail.reverse ++ back) rest := by
  induction bound generalizing back s with
  | zero => omega
  | succ bound ih =>
    by_cases hzero : pathTail (bound + 1) s = 0
    · exact ⟨[], s, rfl, hzero, rfl, h.fresh hzero⟩
    · obtain ⟨start, word, gap, rest, rfl, hstart, hseg, hsize⟩ := exists_segment_of_pathTail hzero
      obtain ⟨tail, rest, rfl, htail, hnames, hfresh⟩ :=
        ih (hseg.pathEnd (start.reverse ++ '.' :: back)) (by simp at hbound; omega)
      refine ⟨'.' :: (start ++ (word ++ (gap ++ tail))), rest, by simp, by simp [hsize, htail]; omega, ?_, ?_⟩
      · have hdot : startsPath back ('.' :: (start ++ (word ++ (gap ++ (tail ++ rest))))) = false := by
          simp [startsPath, show isWordChar '.' = false by decide]
        rw [startNames_skip hdot, startNames_gap fun c hc => isWordChar_of_isBlank (hstart c hc),
          startNames_word hseg.letters (.inr (by rw [continuesPath_dot hstart]; exact h.word)),
          startNames_gap fun c hc => isWordChar_of_isBlank (hseg.blanks c hc), hnames]
        simp
      · simpa using hfresh

theorem pathHead?_eq (s : List Char) :
    pathHead? s = if (s.takeWhile isWordChar).isEmpty then none
      else some (headName s, (s.takeWhile isWordChar).length + ((s.dropWhile isWordChar).takeWhile isBlank).length +
        pathTail (((s.dropWhile isWordChar).dropWhile isBlank).length + 1)
          ((s.dropWhile isWordChar).dropWhile isBlank)) := by
  simp only [pathHead?, drop_length_takeWhile]
  rfl

theorem findAll_pathHead? (h : Fresh back s) : Text.findAll pathHead? s = startNames back s := by
  induction hn : s.length using Nat.strong_induction_on generalizing back s with
  | _ n ih =>
    cases s with
    | nil => rfl
    | cons c s =>
      have hlength : s.length < n := by rw [← hn]; exact Nat.lt_succ_self _
      by_cases hc : isWordChar c = true
      · have hseg := segment_takeWhile (s := c :: s) (by simp [hc])
        have hhead := pathHead?_eq (c :: s)
        rw [if_neg (by simp [hc])] at hhead
        revert hseg hhead
        generalize ((c :: s).takeWhile isWordChar) = word, (((c :: s).dropWhile isWordChar).takeWhile isBlank) = gap,
          (((c :: s).dropWhile isWordChar).dropWhile isBlank) = rest
        intro hseg hhead
        obtain ⟨tail, rest, rfl, htail, hnames, hfresh⟩ :=
          startNames_pathTail (hseg.pathEnd back) (Nat.lt_succ_self _)
        have hstart : startsPath back (c :: s) = true := h [] (c :: s) rfl (by simp) (by simp [hc])
        obtain ⟨d, word, rfl⟩ := exists_cons_of_ne_nil hseg.ne
        obtain ⟨rfl, rfl⟩ : c = d ∧ s = word ++ (gap ++ (tail ++ rest)) := List.cons.inj hseg.eq
        have hletters : ∀ d ∈ word, isWordChar d = true := fun d hd => hseg.letters d (mem_cons_of_mem _ hd)
        have hdrop : (word ++ (gap ++ (tail ++ rest))).drop ((c :: word).length + gap.length + tail.length - 1) =
            rest := by
          rw [← append_assoc, ← append_assoc]
          exact drop_left' (by simp; omega)
        rw [htail] at hhead
        rw [findAll_cons_of_some hhead, hdrop, startNames, if_pos hstart,
          startNames_word hletters (.inl (by simp [hc])),
          startNames_gap fun d hd => isWordChar_of_isBlank (hseg.blanks d hd),
          ih rest.length (by simp at hlength; omega) hfresh rfl]
        simpa using hnames.symm
      · have hskip : startsPath back (c :: s) = false := by simp [startsPath, hc]
        have hnone : pathHead? (c :: s) = none := by
          rw [pathHead?_eq, if_pos (by simp [hc])]
        have hfresh : Fresh (c :: back) s := by
          rintro gap rest rfl hgap hrest
          have hnext := h (c :: gap) rest rfl (by simpa [hc] using hgap) hrest
          simpa using hnext
        rw [startNames_skip hskip, findAll_cons_of_none hnone, ih _ hlength hfresh rfl]

theorem mem_usedIds {ids args : List String} {code : String} {x : String} :
    x ∈ usedIds ids args code ↔ x ∈ ids ∧ x ∉ args ∧ ∃ before rest, code.toList = before ++ rest ∧
      startsPath before.reverse rest = true ∧ x = headName rest := by
  have hfresh : Fresh [] code.toList := by
    intro gap rest _ hgap hrest
    have hback : ∀ c ∈ gap.reverse ++ [], isWordChar c = false := fun c hc => hgap c (by simpa using hc)
    rw [startsPath, hrest, continuesPath_of_not_word hback]
    cases hhead : (gap.reverse ++ []).head? with
    | none => rfl
    | some c => simp [hback c (mem_of_head? hhead)]
  have hmem : x ∈ usedIds ids args code ↔
      x ∈ (Text.findAll pathHead? code.toList).filter fun name => ids.contains name && !args.contains name :=
    (NameSet.mem_foldl_add [] _ x).trans (by simp)
  rw [hmem, mem_filter, findAll_pathHead? hfresh, mem_startNames]
  simp [and_comm, and_assoc]

/-! ## Lines that look identifiers up -/

def dotsHidden : List Char → Bool
  | [] => true
  | c :: s => (c ≠ '.' || s.head? = some '_') && dotsHidden s

theorem dotsHidden_append (hs : dotsHidden s = true) (ht : dotsHidden t = true) : dotsHidden (s ++ t) = true := by
  induction s with
  | nil => exact ht
  | cons c s ih =>
    simp only [dotsHidden, Bool.and_eq_true, Bool.or_eq_true, decide_eq_true_eq] at hs
    obtain ⟨hc, hs⟩ := hs
    simp only [cons_append, dotsHidden, ih hs, Bool.and_true, Bool.or_eq_true, decide_eq_true_eq]
    refine hc.imp_right fun hhead => ?_
    rw [head?_append, hhead]
    rfl

theorem dotsHidden_of_not_mem (h : '.' ∉ s) : dotsHidden s = true := by
  induction s with
  | nil => rfl
  | cons c s ih =>
    have hc : c ≠ '.' := fun heq => h (by simp [heq])
    simp [dotsHidden, hc, ih fun hs => h (mem_cons_of_mem _ hs)]

theorem dotsHidden_suffix (h : dotsHidden s = true) (ht : t <:+ s) : dotsHidden t = true := by
  obtain ⟨front, rfl⟩ := ht
  induction front with
  | nil => exact h
  | cons c front ih => exact ih (by simp_all [dotsHidden])

/-- Where dots are hidden up to a new line, no value of a choice starts. -/
theorem choiceValue?_eq_none (h : dotsHidden s = true) (hline : '\n' ∈ s) (rest : List Char) :
    choiceValue? (s ++ rest) = none := by
  rw [Option.eq_none_iff_forall_ne_some]
  rintro ⟨⟨type, value⟩, n⟩ hsome
  obtain ⟨c, t, d, v, rest', -, -, heq, -, -, hd, ht, -⟩ := exists_choiceValue hsome
  have hword : '\n' ∉ c :: t := fun hmem => absurd (ht _ hmem) (by decide)
  rcases append_eq_append_iff.mp heq with ⟨more, hmore, -⟩ | ⟨more, rfl, hmore⟩
  · exact hword (hmore ▸ mem_append_left _ hline)
  · cases more with
    | nil => exact hword (by simpa using hline)
    | cons x more =>
      obtain ⟨rfl, hbehind⟩ := List.cons.inj hmore
      have hdot := dotsHidden_suffix h (suffix_append (c :: t) _)
      cases more with
      | nil => simp [dotsHidden] at hdot
      | cons y more =>
        obtain ⟨rfl, -⟩ := List.cons.inj hbehind
        have hunder : d = '_' := by
          simp only [dotsHidden, head?_cons, Bool.and_eq_true] at hdot
          simpa using hdot.1
        exact absurd (hunder ▸ hd) (by decide)

theorem headName_not_dot (s : List Char) : '.' ∉ (headName s).toList := by
  rw [headName, String.toList_ofList, mem_append]
  rintro (hmem | hmem)
  · exact absurd (mem_takeWhile_imp hmem) (by decide)
  · exact absurd (mem_takeWhile_imp hmem) (by decide)

theorem dotsHidden_lookUps {ids : List String} (h : ∀ x ∈ ids, '.' ∉ x.toList) :
    dotsHidden (lookUps ids).toList = true := by
  have hline : ∀ parts : List String, (∀ part ∈ parts, dotsHidden part.toList = true) →
      dotsHidden (", ".intercalate parts).toList = true := by
    intro parts hparts
    induction parts with
    | nil => rw [String.intercalate_nil]; rfl
    | cons part parts ih =>
      obtain ⟨hpart, hrest⟩ := forall_mem_cons.mp hparts
      by_cases hnil : parts = []
      · rw [hnil, String.intercalate_singleton]
        exact hpart
      · rw [String.intercalate_cons_of_ne_nil hnil, String.toList_append, String.toList_append]
        exact dotsHidden_append (dotsHidden_append hpart rfl) (ih hrest)
  have hlook : ∀ part ∈ ids.map fun id => id ++ " = this._get('" ++ id ++ "', true)",
      dotsHidden part.toList = true := by
    intro part hpart
    obtain ⟨id, hid, rfl⟩ := mem_map.mp hpart
    have hhidden := dotsHidden_of_not_mem (h id hid)
    simp only [String.toList_append]
    exact dotsHidden_append (dotsHidden_append (dotsHidden_append hhidden (by decide)) hhidden) (by decide)
  rw [lookUps, String.toList_append, String.toList_append]
  exact dotsHidden_append (dotsHidden_append (by decide) (hline _ hlook)) (by decide)

end QmlScript.Script

namespace QmlScript.Registry

open QmlScript.Script List

/-- The code of a function that starts with a brace gets a line behind the brace that looks up the
identifiers in it: those that start a path in the code, with the blanks behind them, and that are no
arguments. The rest stays as it is but for the values of choices. -/
theorem processCode_looksUp (c : Component) (args : List String) (body : String) (r : Registry) :
    ∃ ids text r', ids.Pairwise (· < ·) ∧
      (∀ x, x ∈ ids ↔ x ∈ r.ids ∧ x ∉ args ∧ ∃ before rest, '\x7b' :: body.toList = before ++ rest ∧
        startsPath before.reverse rest = true ∧ x = headName rest) ∧
      run (resolveChoices c body) r = (.ok text, r') ∧
      run (processCode c args ("\x7b" ++ body)) r =
        (.ok ("\x7b" ++ (if ids = [] then "" else lookUps ids) ++ text), r') := by
  obtain ⟨text, r', htext, -⟩ := run_resolveChoices c body r
  obtain ⟨ids, hids⟩ : ∃ ids, usedIds r.ids args ("\x7b" ++ body) = ids := ⟨_, rfl⟩
  have hmem : ∀ x, x ∈ ids ↔ x ∈ r.ids ∧ x ∉ args ∧ ∃ before rest, '\x7b' :: body.toList = before ++ rest ∧
      startsPath before.reverse rest = true ∧ x = headName rest := by
    intro x
    rw [← hids, mem_usedIds]
    simp
  have hbrace : ∀ {rest out : String}, run (resolveChoices c rest) r = (.ok out, r') →
      run (resolveChoices c ("\x7b" ++ rest)) r = (.ok ("\x7b" ++ out), r') := by
    intro rest out hrest
    refine run_resolveChoices_append (fun w hw hsuffix => ?_) hrest
    obtain rfl : w = ['\x7b'] := by simpa [suffix_cons_iff, hw] using hsuffix
    rfl
  refine ⟨ids, text, r', hids ▸ NameSet.Ordered.foldl_add List.Pairwise.nil _, hmem, htext, ?_⟩
  rw [processCode, run_bind_of_ok (run_get r), hids]
  by_cases hnone : ids = []
  · rw [hnone, if_pos rfl]
    exact hbrace htext
  · have hput : behindBrace? (lookUps ids) ("\x7b" ++ body) = some ("\x7b" ++ (lookUps ids ++ body)) := by
      simp [behindBrace?, cutFirstText?, Text.cutFirst?, String.append_assoc]
    have hlines : run (resolveChoices c (lookUps ids ++ body)) r = (.ok (lookUps ids ++ text), r') := by
      refine run_resolveChoices_append (fun w hw hsuffix => ?_) htext
      have hhidden : dotsHidden (lookUps ids).toList = true := by
        refine dotsHidden_lookUps fun x hx => ?_
        obtain ⟨-, -, -, rest, -, -, rfl⟩ := (hmem x).mp hx
        exact headName_not_dot rest
      refine choiceValue?_eq_none (dotsHidden_suffix hhidden hsuffix) ?_ _
      rw [lookUps, String.toList_append, show "\n".toList = ['\n'] from rfl] at hsuffix
      obtain hnil | ⟨front, rfl, -⟩ := suffix_concat_iff.mp hsuffix
      · exact absurd hnil hw
      · simp
    rw [if_neg (by simpa using hnone), if_neg hnone, hput, String.append_assoc]
    exact hbrace hlines

/-- An identifier with a blank behind it is not looked up. -/
theorem identifier_missed :
    run (processCode { name := "a.X", base := "Item", prototype := true } [] "\x7b x = 1 \x7d")
        { ns := "qml", buildId := "1", ids := ["x"] } =
      (.ok "\x7b x = 1 \x7d", { ns := "qml", buildId := "1", ids := ["x"] }) := by
  rfl

end QmlScript.Registry
