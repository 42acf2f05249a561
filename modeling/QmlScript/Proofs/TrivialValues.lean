import QmlScript.Proofs.ManifestVariables
import QmlScript.Proofs.Numeral
import QmlScript.Proofs.References

/-!
# Trivial values

A trivial value depends on nothing and is set on the prototype, except for a string literal that has a reference or a
call of a localizing function in it.
-/

namespace QmlScript.Number

open List Option

structure Foreign (c : Char) : Prop where
  margin : isMargin c = false
  digit : Text.digitValue? c = none
  hex : Text.hexValue? c = none
  sign : c ∉ ['_', '+', '-', '.', 'e', 'E']
  word : c.toLower ∉ "infinity".toList ++ "nan".toList

theorem foreign_dollar : Foreign '$' := ⟨by decide, by decide, by decide, by decide, by decide⟩

theorem foreign_bracket : Foreign '(' := ⟨by decide, by decide, by decide, by decide, by decide⟩

variable {s t : List Char} {c : Char}

theorem Foreign.mem_normalise (hc : Foreign c) (h : c ∈ s) : c ∈ normalise s := by
  have hkeep : ∀ t : List Char, c ∈ t → c ∈ t.dropWhile isMargin := by
    intro t ht
    rw [← takeWhile_append_dropWhile (p := isMargin) (l := t)] at ht
    refine (mem_append.mp ht).resolve_left fun hmem => ?_
    have hmargin := all_eq_true.mp (all_takeWhile (p := isMargin) (l := t)) c hmem
    rw [hc.margin] at hmargin
    exact Bool.false_ne_true hmargin
  rw [normalise, Text.trimBy, mem_reverse]
  refine hkeep _ (mem_reverse.mpr (hkeep _ (mem_map.mpr ⟨c, h, ?_⟩)))
  rw [hc.digit]

theorem Foreign.mem_dropUnderscores? (hc : Foreign c) {before : Option Char} (h : c ∈ s)
    (ht : dropUnderscores? Char.isDigit before s = some t) : c ∈ t := by
  have hunder : c ≠ '_' := fun heq => hc.sign (by simp [heq])
  fun_induction dropUnderscores? Char.isDigit before s generalizing t with
  | case1 => cases h
  | case2 b d s' hd ih =>
    obtain ⟨t, hrest, rfl⟩ := map_eq_some_iff.mp ht
    rcases mem_cons.mp h with rfl | h
    · exact absurd rfl hunder
    · rcases mem_cons.mp h with rfl | h
      · exact mem_cons_self
      · exact mem_cons_of_mem _ (ih h hrest)
  | case3 | case4 => cases ht
  | case5 before d s _ ih =>
    obtain ⟨t, hrest, rfl⟩ := map_eq_some_iff.mp ht
    rcases mem_cons.mp h with rfl | h
    · exact mem_cons_self
    · exact mem_cons_of_mem _ (ih h hrest)

theorem Foreign.mem_readSign (hc : Foreign c) (h : c ∈ s) : c ∈ (readSign s).2 := by
  have hminus : c ≠ '-' := fun heq => hc.sign (by simp [heq])
  have hplus : c ≠ '+' := fun heq => hc.sign (by simp [heq])
  unfold readSign
  split <;> simp_all

theorem Foreign.not_mem_readExponent? (hc : Foreign c) {n : Int} (h : readExponent? s = some n) : c ∉ s := by
  have he : c ≠ 'e' := fun heq => hc.sign (by simp [heq])
  have hE : c ≠ 'E' := fun heq => hc.sign (by simp [heq])
  unfold readExponent? at h
  split at h
  · exact not_mem_nil
  · next e s =>
    split at h
    · next hmark =>
      obtain ⟨n, hdigits, -⟩ := bind_eq_some_iff.mp h
      have hrest : c ∉ s := fun hmem => not_mem_of_readDigits? hc.hex hdigits (hc.mem_readSign hmem)
      rintro (_ | ⟨_, hmem⟩)
      · simp [he, hE] at hmark
      · exact hrest hmem
    · cases h

theorem Foreign.not_mem_readFraction? (hc : Foreign c) {negative : Bool} {x : Double}
    (h : readFraction? negative s = some x) : c ∉ s := by
  have hdot : c ≠ '.' := fun heq => hc.sign (by simp [heq])
  unfold readFraction? at h
  simp only [span_eq_takeWhile_dropWhile] at h
  rw [← takeWhile_append_dropWhile (p := Char.isDigit) (l := s)]
  revert h
  generalize s.takeWhile Char.isDigit = whole
  generalize s.dropWhile Char.isDigit = rest
  intro h
  split at h
  · next rest =>
    obtain ⟨digits, hdigits, h⟩ := bind_eq_some_iff.mp h
    obtain ⟨exponent, hexponent, -⟩ := bind_eq_some_iff.mp h
    have hall := not_mem_of_readDigits? hc.hex hdigits
    have hrest := hc.not_mem_readExponent? hexponent
    rw [← takeWhile_append_dropWhile (p := Char.isDigit) (l := rest)]
    simp only [mem_append, mem_cons, not_or] at hall ⊢
    exact ⟨hall.1, hdot, hall.2, hrest⟩
  · obtain ⟨digits, hdigits, h⟩ := bind_eq_some_iff.mp h
    obtain ⟨exponent, hexponent, -⟩ := bind_eq_some_iff.mp h
    have hall := not_mem_of_readDigits? hc.hex hdigits
    have hrest := hc.not_mem_readExponent? hexponent
    simp_all

theorem Foreign.not_mem_readDouble? (hc : Foreign c) {x : Double} (h : readDouble? s = some x) : c ∉ s := by
  intro hmem
  obtain ⟨t, ht, h⟩ := bind_eq_some_iff.mp h
  have hsign := hc.mem_readSign (hc.mem_dropUnderscores? (hc.mem_normalise hmem) ht)
  revert h hsign
  rcases readSign t with ⟨negative, u⟩
  intro h hsign
  have hword : ∀ word : String, word.toList.all (· ∈ "infinity".toList ++ "nan".toList) = true →
      String.ofList (u.map Char.toLower) ≠ word := by
    rintro word hword rfl
    rw [String.toList_ofList] at hword
    exact hc.word (of_decide_eq_true (all_eq_true.mp hword _ (mem_map_of_mem hsign)))
  dsimp only at h
  rw [if_neg (by simp [hword "inf" (by decide), hword "infinity" (by decide)]), if_neg (hword "nan" (by decide))] at h
  exact hc.not_mem_readFraction? h hsign

end QmlScript.Number

namespace QmlScript.Registry

open QmlScript.Script List Option Text

variable {s : List Char} {text : String}

theorem findAll_reference?_of_not_mem (h : '$' ∉ s) : Text.findAll reference? s = [] := by
  rw [eq_nil_iff_forall_not_mem]
  intro inside hmem
  have hinfix := takes_reference?.infix_of_find (mem_findAll_iff.mp hmem)
  exact h (List.IsInfix.subset hinfix (by simp [referenceText]))

theorem selfContained_of_not_mem (hdollar : '$' ∉ s) (hbracket : '(' ∉ s.tail) : selfContained s = true := by
  rw [selfContained, findAll_reference?_of_not_mem hdollar, isLocalized_of_not_mem hbracket]
  rfl

theorem dropParentheses_cases (s : List Char) : dropParentheses s = s ∨ s = '(' :: (dropParentheses s ++ [')']) := by
  unfold dropParentheses
  split
  · next h =>
    simp only [Bool.and_eq_true, decide_eq_true_eq] at h
    obtain ⟨hopen, hclose⟩ := h
    obtain ⟨t, rfl⟩ := getLast?_eq_some_iff.mp hclose
    cases t with
    | nil => simp at hopen
    | cons c t =>
      obtain rfl : c = '(' := by simpa using hopen
      exact .inr (by simp)
  · exact .inl rfl

theorem selfContained_of_foreign (hdollar : '$' ∉ dropParentheses s) (hbracket : '(' ∉ dropParentheses s) :
    selfContained s = true := by
  rcases dropParentheses_cases s with h | h
  · rw [h] at hdollar hbracket
    exact selfContained_of_not_mem hdollar fun hmem => hbracket (mem_of_mem_tail hmem)
  · rw [h]
    exact selfContained_of_not_mem (by simpa using hdollar) (by simpa using hbracket)

def isPathChar (c : Char) : Bool := c.isAlphanum || c = '$' || c = '.'

theorem exists_manifest_path (h : isManifestReference s = true) :
    ∃ inside, s = '$' :: '\x7b' :: (inside ++ ['\x7d']) ∧ (∀ c ∈ inside, isPathChar c = true) ∧
      dependsOnNothing (String.ofList inside) = true := by
  unfold isManifestReference at h
  split at h
  · cases h
  · next rest hafter =>
    have hclose : rest.drop (rest.takeWhile isPathChar).length = ['\x7d'] :=
      eq_of_beq (Bool.and_eq_true_iff.mp h).2
    have hrest : rest = rest.takeWhile isPathChar ++ ['\x7d'] := by
      rw [← hclose, drop_length_takeWhile, takeWhile_append_dropWhile]
    refine ⟨"manifest.".toList ++ rest.takeWhile isPathChar, ?_, ?_, ?_⟩
    · rw [eq_append_of_after? hafter, append_assoc, ← hrest]
      rfl
    · intro c hc
      rcases mem_append.mp hc with hc | hc
      · have hall : "manifest.".toList.all isPathChar = true := by decide
        exact all_eq_true.mp hall c hc
      · exact mem_takeWhile_imp hc
    · obtain ⟨part, parts, hparts⟩ := exists_cons_of_ne_nil (Text.splitOn_ne_nil '.' (rest.takeWhile isPathChar))
      have hsplit : splitText '.' (String.ofList ("manifest.".toList ++ rest.takeWhile isPathChar)) =
          "manifest" :: String.ofList part :: parts.map String.ofList := by
        have happ := splitOn_append '.' "manifest".toList (rest.takeWhile isPathChar)
        rw [hparts] at happ
        rw [splitText, String.toList_ofList]
        exact congrArg (List.map String.ofList) happ
      rw [dependsOnNothing, hsplit]
      rfl

theorem selfContained_manifest (h : isManifestReference (dropParentheses s) = true) : selfContained s = true := by
  obtain ⟨inside, hdrop, hpath, hnothing⟩ := exists_manifest_path h
  have hnot : ∀ c, isPathChar c = false → c ∉ inside := by
    intro c hc hmem
    rw [hpath c hmem] at hc
    cases hc
  have hfind : ∀ t, '$' ∉ t →
      Text.findAll reference? ('$' :: '\x7b' :: (inside ++ '\x7d' :: t)) = [String.ofList inside] := by
    intro t ht
    have hrest : ('\x7b' :: (inside ++ '\x7d' :: t)).drop (inside.length + 3 - 1) = t := by
      show (inside ++ '\x7d' :: t).drop (inside.length + 1) = t
      rw [append_cons]
      exact drop_left' (by simp)
    rw [findAll_cons_of_some (reference?_append (hnot _ (by decide)) (hnot _ (by decide)) t), hrest,
      findAll_reference?_of_not_mem ht]
  have hbracket : '(' ∉ inside := hnot _ (by decide)
  rcases dropParentheses_cases s with heq | heq
  · rw [← heq, hdrop, selfContained, hfind [] (by simp), isLocalized_of_not_mem (by simpa using hbracket)]
    simpa using hnothing
  · have hs : s = '(' :: '$' :: '\x7b' :: (inside ++ '\x7d' :: [')']) := by rw [heq, hdrop]; simp
    rw [hs, selfContained, findAll_cons_of_none rfl, hfind _ (by simp),
      isLocalized_of_not_mem (by simpa using hbracket)]
    simpa using hnothing

theorem selfContained_of_trivial (h : isTrivialText text = .ok true)
    (hliteral : isPlainLiteral (dropParentheses text.toList) = false) : selfContained text.toList = true := by
  unfold isTrivialText at h
  split at h
  · cases h
  · next heq =>
    dsimp only at h
    split at h
    · next hword =>
      have hplain : ∀ word : String, '$' ∉ word.toList → '(' ∉ word.toList →
          String.ofList (dropParentheses text.toList) = word → selfContained text.toList = true := by
        rintro word hdollar hbracket rfl
        rw [String.toList_ofList] at hdollar hbracket
        exact selfContained_of_foreign hdollar hbracket
      simp only [Bool.or_eq_true, decide_eq_true_eq] at hword
      rcases hword with (hword | hword) | hword
      · exact hplain _ (by decide) (by decide) hword
      · exact hplain _ (by decide) (by decide) hword
      · exact hplain _ (by decide) (by decide) hword
    · split at h
      · next hmanifest => exact selfContained_manifest hmanifest
      · split at h
        · next hnumber =>
          obtain ⟨x, hx⟩ := isSome_iff_exists.mp hnumber
          exact selfContained_of_foreign (Number.foreign_dollar.not_mem_readDouble? hx)
            (Number.foreign_bracket.not_mem_readDouble? hx)
        · split at h
          · cases h
          · rw [hliteral] at h
            cases h

/-- A trivial value depends on nothing, however its paths are reached, unless it is a string literal that calls
a localizing function or has a reference in it that depends on something; and only such a literal is refused as
the initial value of a property. -/
theorem trivial_selfContained (h : isTrivialText text = .ok true) :
    (∀ transform r script deps r', run (dependencies "@error" text transform) r = (.ok (script, deps), r') →
      (deps = [] ↔ (isPlainLiteral (dropParentheses text.toList) → selfContained text.toList))) ∧
    ∀ c r, run (trivialDefault c (.plain (.str text))) r =
      match run (dependencies "@error" text (pathRoot c none)) r with
      | (.ok (script, deps), r') =>
        if isPlainLiteral (dropParentheses text.toList) → selfContained text.toList then (.ok (some script), r')
        else (.error (.dependentDefault deps script), r')
      | (.error e, r') => (.error e, r') := by
  have hdeps : ∀ transform r script deps r', run (dependencies "@error" text transform) r = (.ok (script, deps), r') →
      (deps = [] ↔ (isPlainLiteral (dropParentheses text.toList) → selfContained text.toList)) := by
    intro transform r script deps r' hrun
    rw [dependencies_eq_nil_iff hrun]
    refine ⟨fun hself _ => hself, fun hself => ?_⟩
    cases hliteral : isPlainLiteral (dropParentheses text.toList) with
    | true => exact hself hliteral
    | false => exact selfContained_of_trivial h hliteral
  refine ⟨hdeps, fun c r => ?_⟩
  have htrivial : Component.isTrivialValue (.plain (.str text)) = .ok true := by
    rw [Component.isTrivialValue, isTrivial, h]
    rfl
  rw [trivialDefault, htrivial]
  show run (dependencies "@error" text (pathRoot c none) >>= _) r = _
  rw [run_bind]
  rcases hrun : run (dependencies "@error" text (pathRoot c none)) r with ⟨e | ⟨script, deps⟩, r'⟩
  · rfl
  · have hiff := hdeps _ _ _ _ _ hrun
    dsimp only
    by_cases hnil : deps = []
    · rw [if_pos (hiff.mp hnil), hnil]
      rfl
    · obtain ⟨dep, deps, rfl⟩ := exists_cons_of_ne_nil hnil
      rw [if_neg (mt hiff.mpr hnil)]
      rfl

theorem trivial_selfContained_literal : ([] : List Dependency) = [] ↔
    (isPlainLiteral (dropParentheses "(\"hi\")".toList) → selfContained "(\"hi\")".toList) :=
  (trivial_selfContained (by rfl)).1 pure { ns := "qml", buildId := "1" } "(\"hi\")" [] _ (by rfl)

/-- A literal that calls a localizing function is refused as an initial value. -/
theorem literal_refused :
    run (trivialDefault { name := "a.X", base := "Item", prototype := true } (.plain (.str "(\"call tr(x)\")")))
        { ns := "qml", buildId := "1" } =
      (.error (.dependentDefault [("@error._context", "language")] "(\"call tr(x)\")"),
        { ns := "qml", buildId := "1" }) := by
  rfl

end QmlScript.Registry
