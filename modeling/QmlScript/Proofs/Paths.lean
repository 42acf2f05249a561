import QmlScript.Proofs.Resolution

/-!
# Paths of directories

Directories can be told apart by the names that lead to them, and the way between two goes down all along if
the names of the first are in front of those of the second.
-/

namespace QmlScript.Path

open List Text

def IsName (name : String) : Prop := name ≠ "" ∧ name ≠ "." ∧ name ≠ ".." ∧ '/' ∉ name.toList

instance (name : String) : Decidable (IsName name) := inferInstanceAs (Decidable (_ ∧ _ ∧ _ ∧ _))

variable {name path start : String}

theorem segments_append (front back : String) : segments (front ++ "/" ++ back) = segments front ++ segments back := by
  have hchars : (front ++ "/" ++ back).toList = front.toList ++ '/' :: back.toList := by simp
  rw [segments, splitText, hchars, splitOn_append, map_append]
  rfl

theorem segments_slash (front : String) : segments (front ++ "/") = segments front ++ [""] := by
  have happend := segments_append front ""
  rwa [String.append_empty] at happend

theorem segments_of_isName (h : IsName name) : segments name = [name] := by
  rw [segments, splitText, splitOn_of_not_mem h.2.2.2]
  simp

theorem head_ne_iff (path : String) : head path ≠ "" ↔ path.toList.head? = some '/' := by
  unfold head
  generalize path.toList = chars
  split
  · simp
  · simp
  · simp
  · rename_i hno
    cases chars with
    | nil => simp
    | cons c cs =>
      have hc : c ≠ '/' := fun hc => hno cs (hc ▸ rfl)
      simp [hc]

theorem simplify_of_isName (h : IsName name) (rooted : Bool) (before : List String) :
    simplify rooted before name = name :: before := by
  simp [simplify, h.1, h.2.1, h.2.2.1]

theorem simplify_empty (rooted : Bool) (before : List String) : simplify rooted before "" = before := by
  simp [simplify]

theorem simplified_append (h : IsName name) (front : String) :
    simplified (front ++ "/" ++ name) = simplified (front ++ "/") ++ [name] := by
  have hhead : (head (front ++ "/" ++ name) ≠ "") = (head (front ++ "/") ≠ "") := by
    rw [head_ne_iff, head_ne_iff]
    cases hfront : front.toList <;> simp [hfront]
  simp only [simplified, hhead]
  rw [segments_append, segments_of_isName h, segments_slash, foldl_append, foldl_append]
  simp only [foldl_cons, foldl_nil, simplify_of_isName h, simplify_empty, reverse_cons]

theorem simplified_slash (h : path ≠ "") : simplified (path ++ "/") = simplified path := by
  have hhead : (head (path ++ "/") ≠ "") = (head path ≠ "") := by
    rw [head_ne_iff, head_ne_iff]
    cases hpath : path.toList with
    | nil => exact absurd (String.toList_inj.mp hpath) h
    | cons c cs => simp [hpath]
  simp only [simplified, hhead]
  rw [segments_slash, foldl_append]
  simp only [foldl_cons, foldl_nil, simplify_empty]

theorem startsWithText_slash (h : IsName name) : startsWithText "/" name = false := by
  rw [Bool.eq_false_iff]
  intro hstart
  obtain ⟨rest, hrest⟩ := Grammar.startsWith_iff.mp hstart
  exact h.2.2.2 (hrest ▸ mem_cons_self)

theorem simplified_join (h : IsName name) (path : String) :
    simplified (join path name) = simplified path ++ [name] := by
  unfold join
  rw [startsWithText_slash h, if_neg Bool.false_ne_true]
  by_cases hempty : path = ""
  · have hname : simplified name = [name] := by
      rw [simplified, segments_of_isName h, foldl_cons, foldl_nil, simplify_of_isName h]
      rfl
    have hnone : simplified "" = [] := by decide
    rw [hempty]
    simpa [hnone] using hname
  · by_cases hend : endsWithText "/" path
    · obtain ⟨front, rfl⟩ := Registry.endsWithText_iff.mp hend
      simp only [hend, Bool.or_true, if_true]
      exact simplified_append h front
    · simp only [hempty, hend, decide_false, Bool.or_false, Bool.false_eq_true, if_false]
      rw [simplified_append h, simplified_slash hempty]

theorem dropCommon_append (front back : List String) : dropCommon front (front ++ back) = ([], back) := by
  induction front with
  | nil => cases back <;> rfl
  | cons name front ih => rw [cons_append, dropCommon, if_pos rfl, ih]

theorem dropCommon_of_not_isPrefix {a b : List String} (h : ¬a <+: b) :
    ∃ first up down, dropCommon a b = (first :: up, down) := by
  induction a generalizing b with
  | nil => exact absurd List.nil_prefix h
  | cons x a ih =>
    cases b with
    | nil => exact ⟨x, a, [], rfl⟩
    | cons y b =>
      by_cases hxy : x = y
      · rw [dropCommon, if_pos hxy]
        exact ih fun hprefix => h (hxy ▸ cons_prefix_cons.mpr ⟨rfl, hprefix⟩)
      · rw [dropCommon, if_neg hxy]
        exact ⟨x, a, y :: b, rfl⟩

/-- The path of a directory, or of something in it that is not below two dots. -/
def IsIn (path start : String) : Prop :=
  simplified start <+: simplified path ∧
    ∀ name ∈ ((simplified path).drop (simplified start).length).head?, startsWithText ".." name = false

instance (path start : String) : Decidable (IsIn path start) := inferInstanceAs (Decidable (_ ∧ _))

theorem IsIn.refl (path : String) : IsIn path path := ⟨prefix_rfl, by simp⟩

theorem startsWithText_join (name : String) (names : List String) :
    startsWithText ".." (joinText "/" (name :: names)) = startsWithText ".." name := by
  have hchars : ∃ rest, (joinText "/" (name :: names)).toList = name.toList ++ rest ∧
      (rest = [] ∨ ∃ more, rest = '/' :: more) := by
    rw [joinText, String.toList_intercalate, map_cons]
    cases names with
    | nil => exact ⟨[], by simp, .inl rfl⟩
    | cons next names =>
      rw [map_cons, intercalate_cons_cons, append_assoc]
      exact ⟨_, rfl, .inr ⟨_, rfl⟩⟩
  obtain ⟨rest, hrest, hslash⟩ := hchars
  unfold startsWithText
  rw [hrest]
  -- a slash is no dot, so both dots stand in the name
  rcases hslash with rfl | ⟨more, rfl⟩
  · rw [append_nil]
  · rcases name.toList with _ | ⟨c, _ | ⟨d, chars⟩⟩
    · rfl
    · simp [startsWith, after?]
    · by_cases hc : '.' = c
      · subst hc
        by_cases hd : '.' = d
        · subst hd
          rfl
        · simp [startsWith, after?, hd]
      · simp [startsWith, after?, hc]

/-- The way to a path starts with two dots if it is outside. -/
theorem startsWithText_relative (path start : String) :
    startsWithText ".." (relative path start) = false ↔ IsIn path start := by
  unfold relative
  by_cases h : simplified start <+: simplified path
  · obtain ⟨below, hbelow⟩ := h
    have hin : IsIn path start ↔ ∀ name ∈ below.head?, startsWithText ".." name = false := by
      unfold IsIn
      rw [← hbelow, drop_left]
      exact and_iff_right (prefix_append _ _)
    rw [hin, ← hbelow, dropCommon_append]
    cases below with
    | nil => simp; decide
    | cons name names =>
      simp only [map_nil, nil_append, startsWithText_join]
      simp
  · obtain ⟨first, up, down, hdrop⟩ := dropCommon_of_not_isPrefix h
    rw [hdrop]
    simp only [map_cons, cons_append, startsWithText_join]
    exact ⟨fun hdots => absurd hdots (by decide), fun hin => absurd hin.1 h⟩

theorem segments_relative {below : List String} (h : simplified path = simplified start ++ below)
    (hnames : ∀ name ∈ below, IsName name) :
    (if relative path start = "." then [] else segments (relative path start)) = below := by
  unfold relative
  rw [h, dropCommon_append]
  cases below with
  | nil => rfl
  | cons name names =>
    have hsegments : segments (joinText "/" (name :: names)) = name :: names :=
      splitText_intercalate (cons_ne_nil _ _) fun part hpart => (hnames part hpart).2.2.2
    have hne : joinText "/" (name :: names) ≠ "." := fun heq => by
      rw [heq] at hsegments
      exact (hnames name mem_cons_self).2.1 (List.cons.inj hsegments).1.symm
    exact (if_neg hne).trans hsegments

end QmlScript.Path
