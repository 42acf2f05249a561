import Mathlib.Data.String.Basic
import QmlScript.Proofs.Scanning
import QmlScript.Script.Reference

/-!
# Names with dots

A full name is cut at its last dot into a package and a name in it, and a package at all its dots into
segments. Escaping leaves dots alone, and a variable with dollar signs tells the segments apart again.
-/

namespace QmlScript.Text

open List

variable {sep : Char} {s : List Char} {name : String}

theorem exists_splitOn (sep : Char) (s : List Char) : ∃ parts, splitOn sep s = s.takeWhile (· != sep) :: parts := by
  induction s with
  | nil => exact ⟨[], rfl⟩
  | cons x s ih =>
    obtain ⟨parts, hparts⟩ := ih
    by_cases hx : x = sep
    · exact ⟨splitOn sep s, by simp [splitOn, hx]⟩
    · exact ⟨parts, by simp [splitOn, hx, hparts]⟩

theorem splitOn_append (sep : Char) (s t : List Char) :
    splitOn sep (s ++ sep :: t) = splitOn sep s ++ splitOn sep t := by
  induction s with
  | nil => simp [splitOn]
  | cons x s ih =>
    obtain ⟨parts, hparts⟩ := exists_splitOn sep s
    by_cases hx : x = sep
    · simp [splitOn, hx, ih]
    · simp [splitOn, hx, ih, hparts]

theorem splitOn_ne_nil (sep : Char) (s : List Char) : splitOn sep s ≠ [] := by
  obtain ⟨parts, hparts⟩ := exists_splitOn sep s
  rw [hparts]
  exact cons_ne_nil _ _

theorem splitOn_of_not_mem (h : sep ∉ s) : splitOn sep s = [s] := by
  induction s with
  | nil => rfl
  | cons x s ih =>
    obtain ⟨hx, hs⟩ := not_or.mp (mt mem_cons.mpr h)
    simp [splitOn, Ne.symm hx, ih hs]

theorem not_mem_of_mem_splitOn {part : List Char} (h : part ∈ splitOn sep s) : sep ∉ part := by
  induction s generalizing part with
  | nil =>
    obtain rfl := mem_singleton.mp h
    exact not_mem_nil
  | cons x s ih =>
    obtain ⟨parts, hparts⟩ := exists_splitOn sep s
    rw [hparts] at ih
    by_cases hx : x = sep
    · simp only [splitOn, if_pos hx, hparts] at h
      rcases mem_cons.mp h with rfl | h
      · exact not_mem_nil
      · exact ih h
    · simp only [splitOn, if_neg hx, hparts] at h
      rcases mem_cons.mp h with rfl | h
      · have hfirst := ih mem_cons_self
        simp [Ne.symm hx, hfirst]
      · exact ih (mem_cons_of_mem _ h)

theorem splitOn_intercalate {parts : List (List Char)} (hne : parts ≠ [])
    (h : ∀ part ∈ parts, sep ∉ part) : splitOn sep ([sep].intercalate parts) = parts := by
  induction parts with
  | nil => exact absurd rfl hne
  | cons part parts ih =>
    have hpart := splitOn_of_not_mem (h part mem_cons_self)
    cases parts with
    | nil => rw [intercalate_singleton, hpart]
    | cons next parts =>
      have hrest := ih (cons_ne_nil _ _) fun p hp => h p (mem_cons_of_mem _ hp)
      rw [intercalate_cons_cons, append_assoc, singleton_append, splitOn_append, hpart, hrest, singleton_append]

theorem intercalate_splitOn (sep : Char) (s : List Char) : [sep].intercalate (splitOn sep s) = s := by
  induction s with
  | nil => rfl
  | cons x s ih =>
    obtain ⟨parts, hparts⟩ := exists_splitOn sep s
    rw [hparts] at ih
    by_cases hx : x = sep
    · rw [splitOn, if_pos hx, hparts, intercalate_cons_cons, ih, hx]
      rfl
    · simp only [splitOn, if_neg hx, hparts]
      cases parts with
      | nil =>
        rw [intercalate_singleton] at ih ⊢
        rw [ih]
      | cons next parts =>
        rw [intercalate_cons_cons] at ih ⊢
        rw [cons_append, cons_append, ih]

end QmlScript.Text

namespace QmlScript

open List Package Text

theorem cutLastText?_append (package : String) (h : '.' ∉ name.toList) :
    cutLastText? '.' (package ++ "." ++ name) = some (package, name) := by
  have hreverse : (package ++ "." ++ name).toList.reverse = name.toList.reverse ++ '.' :: package.toList.reverse := by
    simp
  rw [cutLastText?, Text.cutLast?, hreverse, cutFirst?_append _ (by simpa using h)]
  simp

theorem cutLastText?_eq_some {s package name : String} (h : cutLastText? '.' s = some (package, name)) :
    s = package ++ "." ++ name ∧ '.' ∉ name.toList := by
  obtain ⟨⟨front, back⟩, hlast, heq⟩ := Option.map_eq_some_iff.mp h
  obtain ⟨rfl, rfl⟩ := Prod.mk.inj heq
  obtain ⟨hs, hnot⟩ := cutLast?_eq_some hlast
  refine ⟨?_, by simpa using hnot⟩
  apply String.toList_inj.mp
  rw [hs]
  simp

theorem cutLastText?_eq_none {s : String} (h : cutLastText? '.' s = none) : '.' ∉ s.toList := by
  have hreverse := cutFirst?_eq_none (Option.map_eq_none_iff.mp (Option.map_eq_none_iff.mp h))
  simpa using hreverse

theorem splitText_ne_nil (sep : Char) (s : String) : splitText sep s ≠ [] := by
  simp [splitText, Text.splitOn_ne_nil]

theorem not_mem_of_mem_splitText {sep : Char} {s part : String} (h : part ∈ splitText sep s) : sep ∉ part.toList := by
  obtain ⟨part, hpart, rfl⟩ := mem_map.mp h
  rw [String.toList_ofList]
  exact not_mem_of_mem_splitOn hpart

theorem splitText_append_dot (package name : String) :
    splitText '.' (package ++ "." ++ name) = splitText '.' package ++ splitText '.' name := by
  have hlist : (package ++ "." ++ name).toList = package.toList ++ '.' :: name.toList := by simp
  rw [splitText, hlist, splitOn_append, map_append]
  rfl

theorem splitText_append (package : String) (h : '.' ∉ name.toList) :
    splitText '.' (package ++ "." ++ name) = splitText '.' package ++ [name] := by
  rw [splitText_append_dot, splitText, splitText, splitOn_of_not_mem h]
  simp

theorem intercalate_splitText (sep : Char) (s : String) : (String.singleton sep).intercalate (splitText sep s) = s := by
  apply String.toList_inj.mp
  rw [String.toList_intercalate, String.toList_singleton, splitText, map_map]
  simp only [Function.comp_def, String.toList_ofList, map_id']
  exact Text.intercalate_splitOn sep s.toList

theorem splitText_intercalate {sep : Char} {parts : List String} (hne : parts ≠ [])
    (h : ∀ part ∈ parts, sep ∉ part.toList) :
    splitText sep ((String.singleton sep).intercalate parts) = parts := by
  have hparts : Text.splitOn sep ([sep].intercalate (parts.map String.toList)) = parts.map String.toList := by
    refine Text.splitOn_intercalate (by simpa using hne) fun part hpart => ?_
    obtain ⟨part, hmem, rfl⟩ := mem_map.mp hpart
    exact h part hmem
  rw [splitText, String.toList_intercalate, String.toList_singleton, hparts, map_map]
  simp [Function.comp_def]

namespace Package

variable {name package : String}

@[simp] theorem splitName_append (package : String) (h : '.' ∉ name.toList) :
    splitName (package ++ "." ++ name) = (package, name) := by
  rw [splitName, cutLastText?_append package h]
  rfl

theorem not_mem_splitName (name : String) : '.' ∉ (splitName name).2.toList := by
  unfold splitName
  cases h : cutLastText? '.' name with
  | none => exact cutLastText?_eq_none h
  | some cut => exact (cutLastText?_eq_some h).2

def escapeIdChar (x : Char) : Char := if isIdChar x then x else '_'

theorem toList_escapeId (name : String) : (escapeId name).toList = name.toList.map escapeIdChar := by
  rw [escapeId, String.toList_ofList]
  rfl

theorem isIdChar_of_mem_escapeId {x : Char} (h : x ∈ (escapeId name).toList) : isIdChar x = true := by
  rw [toList_escapeId] at h
  obtain ⟨y, -, rfl⟩ := mem_map.mp h
  unfold escapeIdChar
  split
  · assumption
  · decide

theorem escapeId_escapeId (name : String) : escapeId (escapeId name) = escapeId name := by
  apply String.toList_inj.mp
  rw [toList_escapeId (escapeId name)]
  conv_rhs => rw [← map_id (escapeId name).toList]
  exact map_congr_left fun x hx => if_pos (isIdChar_of_mem_escapeId hx)

theorem dot_not_mem_escapeId (name : String) : '.' ∉ (escapeId name).toList :=
  fun h => absurd (isIdChar_of_mem_escapeId h) (by decide)

theorem splitText_escapeSegments (package : String) :
    splitText '.' (escapeSegments package) = (splitText '.' package).map escapeId := by
  refine splitText_intercalate (by simpa using splitText_ne_nil '.' package) fun part hpart => ?_
  obtain ⟨segment, -, rfl⟩ := mem_map.mp hpart
  exact dot_not_mem_escapeId segment

theorem escapeSegments_escapeSegments (package : String) :
    escapeSegments (escapeSegments package) = escapeSegments package := by
  rw [escapeSegments, splitText_escapeSegments, map_map]
  simp only [Function.comp_def, escapeId_escapeId]
  rfl

theorem escapeSegments_append (package : String) (h : '.' ∉ name.toList) :
    escapeSegments (package ++ "." ++ name) = escapeSegments package ++ "." ++ escapeId name := by
  rw [escapeSegments, splitText_append package h, map_append, map_singleton,
    String.intercalate_append_of_ne_nil (by simpa using splitText_ne_nil '.' package) (by simp),
    String.intercalate_singleton, ← escapeSegments]

/-- The package is inside one named like the object of all packages. -/
def InGlobals (package : String) : Prop := (splitText '.' package).head? = some "_globals"

instance (package : String) : Decidable (InGlobals package) := inferInstanceAs (Decidable (_ = _))

theorem mangle_of_not_inGlobals (h : ¬ InGlobals (escapeSegments package)) :
    mangle package = "$".intercalate ("" :: (splitText '.' package).map escapeId) := by
  rw [InGlobals, splitText_escapeSegments] at h
  unfold mangle
  dsimp only
  split
  · rename_i heq
    rw [heq] at h
    exact absurd rfl h
  · rfl

/-- Inside the object of all packages a package has the same variable. -/
theorem mangle_globals (package : String) :
    mangle ("_globals." ++ package) = "$".intercalate ("" :: (splitText '.' package).map escapeId) := by
  have hsplit : splitText '.' ("_globals." ++ package) = "_globals" :: splitText '.' package :=
    splitText_append_dot "_globals" package
  have hescape : escapeId "_globals" = "_globals" := by decide
  rw [mangle, hsplit, map_cons, hescape]
  rfl

theorem mangle_globals_escapeSegments (h : ¬ InGlobals (escapeSegments package)) :
    mangle ("_globals." ++ escapeSegments package) = mangle package := by
  rw [mangle_globals, mangle_of_not_inGlobals h, splitText_escapeSegments, map_map]
  simp only [Function.comp_def, escapeId_escapeId]

theorem escapeSegments_eq_of_mangle_eq {package' : String} (h : ¬ InGlobals (escapeSegments package))
    (h' : ¬ InGlobals (escapeSegments package')) (heq : mangle package = mangle package') :
    escapeSegments package = escapeSegments package' := by
  have hdollar : ∀ p : String, ∀ part ∈ "" :: (splitText '.' p).map escapeId, '$' ∉ part.toList := by
    intro p part hpart
    rcases mem_cons.mp hpart with rfl | hpart
    · simp
    · obtain ⟨segment, -, rfl⟩ := mem_map.mp hpart
      exact fun hmem => absurd (isIdChar_of_mem_escapeId hmem) (by decide)
  rw [mangle_of_not_inGlobals h, mangle_of_not_inGlobals h'] at heq
  have hsegments := congrArg (splitText '$') heq
  have hcut := splitText_intercalate (cons_ne_nil _ _) (hdollar package)
  have hcut' := splitText_intercalate (cons_ne_nil _ _) (hdollar package')
  rw [show "$" = String.singleton '$' from rfl, hcut, hcut'] at hsegments
  rw [escapeSegments, escapeSegments, (List.cons.inj hsegments).2]

end Package

namespace Registry

def escapeChar (x : Char) : Char := if Text.isWordChar x then x else '_'

theorem toList_escape (name : String) : (escape name).toList = name.toList.map escapeChar := by
  rw [escape, String.toList_ofList]
  rfl

theorem escape_append (s t : String) : escape (s ++ t) = escape s ++ escape t := by
  apply String.toList_inj.mp
  simp [toList_escape]

theorem isWordChar_escapeChar (x : Char) : Text.isWordChar (escapeChar x) = true := by
  by_cases h : Text.isWordChar x = true
  · rw [escapeChar, if_pos h]
    exact h
  · rw [escapeChar, if_neg h]
    decide

theorem escape_of_word (h : ∀ x ∈ name.toList, Text.isWordChar x = true) : escape name = name := by
  apply String.toList_inj.mp
  rw [toList_escape]
  have hsame : name.toList.map escapeChar = name.toList.map id :=
    map_congr_left fun x hx => if_pos (h x hx)
  rw [hsame, map_id]

theorem isWordChar_of_mem_escape {x : Char} (h : x ∈ (escape name).toList) : Text.isWordChar x = true := by
  rw [toList_escape] at h
  obtain ⟨y, -, rfl⟩ := mem_map.mp h
  exact isWordChar_escapeChar y

theorem escape_escape (name : String) : escape (escape name) = escape name :=
  escape_of_word fun _ hx => isWordChar_of_mem_escape hx

end Registry

end QmlScript
