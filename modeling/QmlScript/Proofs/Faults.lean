import QmlScript.Proofs.Reaching

/-!
# Sources that are refused for a number

A source is refused for a number only where its parser comes to read one and finds a numeral that is none; and
each such numeral without a sign is refused once it is given to a property.
-/

namespace QmlScript.Grammar

open QmlScript.Grammar.Parser List

variable {s : List Char} {c : Cursor} {n : Notes} {fault : Number.Fault}

namespace Explains

/-- The text of a value behind words: what cannot be written is a numeral's. -/
theorem bindWritten {α β : Type} {good : α → Prop} {p : Parser α} {q : Parser β} {text : Json → String}
    {value : α → Json} (hp : Explains s good p) (hq : Accounts s q)
    (hvalue : ∀ a, good a → (value a).isWritable = true) :
    Accounts s (p >>= fun a => q >>= fun _ => written text (value a)) := by
  have hgood : ∀ a, good a → Quiet s (fun _ => True) (written text (value a)) := by
    intro a ha c n hc
    rw [written_done (hvalue a ha)]
    exact ⟨.same, rfl, hc, .inl trivial⟩
  refine hp.bindCases (fun a ha => hq.bind fun _ => of_quiet (hgood a ha)) fun a c n hc => ?_
  obtain ⟨reply, n', hrun, hnotes, hfault, hreply⟩ := hq c n hc
  have hfirst : ∀ {fault}, Finds s fault q c n → Finds s fault (q >>= fun _ => written text (value a)) c n :=
    Finds.imp fun _ _ h => .first h
  cases reply with
  | miss offset lack =>
    exact ⟨.miss offset lack, n', by rw [bind_eq, Parser.bind, hrun], hnotes,
      fun fault h => (hfault fault h).imp_right fun h => .inr (hfirst h), hreply⟩
  | stop offset lack =>
    exact ⟨.stop offset lack, n', bind_stop hrun, hnotes,
      fun fault h => (hfault fault h).imp_right fun h => .inr (hfirst h), hreply⟩
  | done b next =>
    refine ⟨_, _, bind_done hrun, ?_, fun fault h => ?_, hreply.1, .inr trivial⟩
    · split
      · exact hnotes
      · exact hnotes.fault _
    split at h
    · exact (hfault fault h).imp_right fun h => .inr (hfirst h)
    · cases hbefore : n'.fault with
      | some noted =>
        dsimp only at h
        rw [hbefore] at h
        exact (hfault fault (hbefore.trans h)).imp_right fun h => .inr (hfirst h)
      | none =>
        dsimp only at h
        rw [hbefore] at h
        exact .inr (.inl (Option.some.inj h).symm)

theorem listing : Accounts s listing := by
  refine (mark "[").bind fun _ =>
    (plainValue.sepBy (mark ",")).optional.required.bindWritten (mark "]").required fun items hitems => ?_
  rw [Json.isWritable, Json.areWritable_iff]
  cases items with
  | none => simp
  | some items => exact hitems items rfl

theorem checkType (type : String) {offset : Nat} (hoffset : offset ≤ s.length) :
    Accounts s (checkType type offset) := by
  refine of_quiet fun c n hc => ?_
  unfold Grammar.checkType
  dsimp only
  split
  · exact ⟨.same, rfl, Nat.zero_le _⟩
  · split
    · exact ⟨.same, rfl, hoffset⟩
    · exact ⟨.same, rfl, hc, .inl trivial⟩

theorem closed : Closed (· ≤ s.length) fun p => Accounts s p where
  pure _ := pure trivial
  missing := missing
  sized := sized
  bind := bind
  orElse := orElse
  choice := choice
  optional h := h.optional.accounts
  required := required
  tentative := tentative
  checked := checked
  telling lack := telling lack
  many h := h.many.accounts
  token := token
  keyword := keyword
  declare := declare
  code := of_quiet quiet_code
  nullWord := nullWord
  truthValue := truthValue
  plainValue := plainValue.accounts
  record := record
  written _ _ hq := number.bindWritten hq fun _ => id
  listing := listing
  place := bindPlace
  checkType type _ := checkType type

theorem source : Accounts s source := by
  refine closed.component.bind fun tree => place.bind fun _ => of_quiet fun c n hc => ?_
  by_cases hend : c.ahead.isEmpty = true
  · simp only [if_pos hend]
    exact ⟨.same, rfl, hc, .inl trivial⟩
  · simp only [if_neg hend]
    exact ⟨.same, rfl, hc.offset_le⟩

end Explains

section Numerals

variable {w rest : List Char}

section

variable (h : numeral? w = some (String.ofList w))
include h

theorem sizes_append (hrest : EndsNumber rest) :
    runSize (w ++ rest) ≠ 0 ∧ markSize (w ++ rest) + runSize (w ++ rest) = w.length := by
  unfold numeral? at h
  split at h
  · cases h
  rename_i hrun
  have hwhole : w.take (markSize w + runSize w) = w := String.ofList_injective (Option.some.inj h)
  have hlength := congrArg List.length hwhole
  rw [length_take] at hlength
  have hmark : markSize (w ++ rest) = markSize w := by
    have hbase := startsWith_append_of_head (p := fun y => y = '0' || y = 'x') (w := ['0', 'x']) (s := w)
      (t := rest) (by simp) fun y hy => by
        have hzero : y ≠ '0' := by
          rintro rfl
          exact absurd (hrest '0' hy).1 (by decide)
        simp [hzero, (hrest y hy).2]
    rw [markSize, hbase, markSize]
  have hle : markSize w ≤ w.length := by
    unfold markSize
    split
    · rename_i hbase
      obtain ⟨t, rfl⟩ := startsWith_iff.mp hbase
      simp
    · exact Nat.zero_le _
  have hprefix : ((w.drop (markSize w)).takeWhile isNumberChar) = w.drop (markSize w) := by
    refine (List.takeWhile_prefix _).eq_of_length ?_
    have hshort : ((w.drop (markSize w)).takeWhile isNumberChar).length ≤ (w.drop (markSize w)).length :=
      (List.takeWhile_prefix _).length_le
    rw [length_drop] at hshort ⊢
    unfold runSize at hlength
    omega
  have hall : ∀ y ∈ w.drop (markSize w), isNumberChar y = true := takeWhile_eq_self_iff.mp hprefix
  have hruns : runSize (w ++ rest) = runSize w := by
    rw [runSize, hmark, drop_append_of_le_length hle,
      takeWhile_append_of_head hall fun y hy => (hrest y hy).1, runSize, hprefix]
  rw [hmark, hruns]
  have hsize : runSize w = w.length - markSize w := by
    rw [runSize, hprefix, length_drop]
  exact ⟨hrun, by omega⟩

theorem numeral?_append (hrest : EndsNumber rest) :
    numeral? (w ++ rest) = some (String.ofList w) := by
  obtain ⟨hrun, hsize⟩ := sizes_append h hrest
  rw [numeral?, if_neg hrun, hsize, take_left']
  rfl

theorem fresh_numeral (hsign : ∀ x ∈ w.head?, x ≠ '+' ∧ x ≠ '-') : Fresh (w ++ rest) := by
  cases w with
  | nil => simp [numeral?, runSize, markSize] at h
  | cons x w =>
    have hx : isNumberChar x = true := by
      by_contra hx
      have hzero : '0' ≠ x := by
        rintro rfl
        exact hx (by decide)
      have hrun : runSize (x :: w) = 0 := by
        simp [runSize, markSize, startsWith_cons_of_ne hzero, hx]
      rw [numeral?, if_pos hrun] at h
      cases h
    refine fresh_of_class (p := fun y => y.isDigit || y = '.') ?_ (by decide)
    simpa [isNumberChar, hsign x rfl] using hx

theorem number_word (hs : Solid (w ++ rest)) (hrest : EndsNumber rest) (hf : c.Faces (w ++ rest)) (n : Notes) :
    number c n = match numberValue (String.ofList w) with
      | .ok value => (.done value (c.reach rest), n)
      | .error fault => (.done .null (c.reach rest), n.blamed fault) := by
  have htext := numberText_eq c n
  rw [skip_eq hf hs] at htext
  simp only [hf.reach_head.ahead, numeral?_append h hrest, (sizes_append h hrest).2, hf.advance] at htext
  exact bind_done htext

end

/-- A source is refused for a numeral given to a property that cannot be read or written. -/
theorem parse_refused (history : History) (h : numeral? w = some (String.ofList w))
    (hsign : ∀ x ∈ w.head?, x ≠ '+' ∧ x ≠ '-') (hrefused : Refused w fault) :
    (parse history (String.ofList (assigningChars w))).result = .error (.number fault) := by
  have hfresh : ∀ rest, Fresh (w ++ rest) := fun rest => fresh_numeral h hsign
  have hrest : EndsNumber ([';'] ++ [' ', '\x7d']) := by
    rintro y ⟨rfl⟩
    decide
  have hclose : Closes 10 true ([';'] ++ [' ', '\x7d']) := .mark (.inl rfl)
  obtain ⟨word, hword, hvalue⟩ := hrefused
  obtain rfl := Option.some.inj (h.symm.trans hword)
  refine parse_blamed history (fun rest => ⟨(hfresh _).solid, (hfresh _).unsigned⟩) fun c hf => ?_
  have hnumber := number_word h (hfresh _).solid hrest hf
  rcases hvalue with herror | ⟨value, hok, hunwritable, rfl⟩
  · simp only [herror] at hnumber
    exact ⟨_, operand_of_number _ (hfresh _) hclose.borders hf hf.reach (hnumber _)
      (by rw [hnumber, Notes.blamed_blamed])⟩
  · simp only [hok] at hnumber
    refine ⟨value.display, (operand_of_number _ (hfresh _) hclose.borders hf hf.reach (hnumber _) (hnumber _)).trans ?_⟩
    rw [written, if_neg (by simp [hunwritable])]
    rfl

end Numerals

/-- A source has a tree, or it goes wrong at one of its places, or it is refused for a numeral that cannot be
read or written, where its parser comes to read a number. And each such numeral without a sign is what a source
is refused for. -/
theorem parse_error_cases (history : History) (text : String) :
    (match (parse history text).result with
      | .ok _ => True
      | .error (.mismatch offset _) => offset ≤ text.length
      | .error (.incomplete offset _) => offset ≤ text.length
      | .error (.number fault) => ∃ place notes, place.In text.toList ∧
          Reaches place notes source (.ofText text.toList) history.start ∧
          Refused (skip place notes).1.ahead fault) ∧
    ∀ word fault, numeral? word.toList = some word → (∀ x ∈ word.toList.head?, x ≠ '+' ∧ x ≠ '-') →
      Refused word.toList fault →
      (parse history ("T \x7b p: " ++ word ++ "; \x7d")).result = .error (.number fault) := by
  constructor
  · generalize hresult : (parse history text).result = result
    obtain ⟨reply, notes, hrun, -, hfault, hreply⟩ := Explains.source _ history.start (.start text.toList)
    rw [parse_eq hrun] at hresult
    rw [← hresult, ← String.length_toList]
    simp only [resultOf]
    cases hnoted : notes.fault with
    | some fault => exact (hfault fault hnoted).resolve_left fun h => by cases h
    | none =>
      cases reply with
      | done tree next => trivial
      | miss offset lack | stop offset lack => exact hreply
  · intro word fault hword hsign hrefused
    have htext : "T \x7b p: " ++ word ++ "; \x7d" = String.ofList (assigningChars word.toList) := by
      rw [← String.toList_inj]
      simp [assigningChars, bodyChars]
    rw [htext]
    exact parse_refused history (by rwa [String.ofList_toList]) hsign hrefused

/-- A difference without blanks is one numeral, and no number. -/
theorem parse_difference :
    numeral? "1-2".toList = some "1-2" ∧ Refused "1-2".toList (.notWhole 10 "1-2") ∧
      (parse {} ("T \x7b p: " ++ "1-2" ++ "; \x7d")).result = .error (.number (.notWhole 10 "1-2")) := by
  have hnumeral : numeral? "1-2".toList = some "1-2" := by decide
  have hrefused : Refused "1-2".toList (.notWhole 10 "1-2") := ⟨"1-2", hnumeral, .inl rfl⟩
  have hsign : ∀ x ∈ "1-2".toList.head?, x ≠ '+' ∧ x ≠ '-' := by
    rintro x ⟨rfl⟩
    decide
  exact ⟨hnumeral, hrefused, (parse_error_cases {} "").2 _ _ hnumeral hsign hrefused⟩

theorem result_eq_error {result : Except ParseError Tree} {e : ParseError}
    (h : (match result with | .ok _ => false | .error e' => decide (e' = e)) = true) : result = .error e := by
  cases result with
  | ok tree => cases h
  | error e' => rw [of_decide_eq_true h]

/-- Numerals that are no numbers, in an expression, behind a sign and in a constant. -/
theorem numerals_refused :
    (parse {} "T \x7b p: 1-2; \x7d").result = .error (.number (.notWhole 10 "1-2")) ∧
      (parse {} "T \x7b p: -; \x7d").result = .error (.number (.notWhole 10 "-")) ∧
      (parse {} "T \x7b const real A: 1.2.3; \x7d").result = .error (.number (.notDouble "1.2.3")) := by
  refine ⟨result_eq_error ?_, result_eq_error ?_, result_eq_error ?_⟩ <;> decide +kernel

end QmlScript.Grammar
