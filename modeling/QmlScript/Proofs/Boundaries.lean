import QmlScript.Proofs.References

/-!
# Where values of choices stand

A value of a choice is found wherever its two words stand, also at the end of a longer name. `atNames`
resolves values only where a name may start. Both agree exactly where no known type has a word character or a
dot in front of it.
-/

namespace QmlScript.Registry

open QmlScript.Script List Text
open QmlScript.Text (isWordChar)

/-- Whether a name may start behind a character. -/
def opensName (before : Option Char) : Bool := before.all fun x => !isWordChar x && x != '.'

/-- The text with something put in for values of choices where a name may start, behind `skip` characters. -/
def atNames (put? : String × String → Option (List Char)) : Nat → Option Char → List Char → List Char
  | _, _, [] => []
  | skip + 1, _, x :: s => atNames put? skip (some x) s
  | 0, before, x :: s =>
    match if opensName before then choiceValue? (x :: s) else none with
    | some (choice, size) =>
      match put? choice with
      | some put => put ++ atNames put? (size - 1) (some x) s
      | none => x :: atNames put? 0 (some x) s
    | none => x :: atNames put? 0 (some x) s

/-- No value is put in where no name may start. -/
def Bounded (put? : String × String → Option (List Char)) : Option Char → List (Char ⊕ (String × String)) → Prop
  | _, [] => True
  | _, .inl x :: pieces => Bounded put? (some x) pieces
  | before, .inr choice :: pieces =>
    ((put? choice).isSome → opensName before) ∧ Bounded put? (choiceText choice).getLast? pieces

variable {put? : String × String → Option (List Char)} {before : Option Char} {x : Char} {w s : List Char}

theorem atNames_keep (h : opensName before = false) :
    atNames put? 0 before (x :: s) = x :: atNames put? 0 (some x) s := by
  rw [atNames, h]
  rfl

theorem atNames_append (h : ∀ y ∈ x :: w, opensName (some y) = false) :
    atNames put? 0 (some x) (w ++ s) = w ++ atNames put? 0 (x :: w).getLast? s := by
  induction w generalizing x with
  | nil => rfl
  | cons y w ih =>
    rw [cons_append, atNames_keep (h x mem_cons_self), ih fun z hz => h z (mem_cons_of_mem _ hz), getLast?_cons_cons]
    rfl

theorem atNames_skip (x : Char) (w s : List Char) :
    atNames put? w.length (some x) (w ++ s) = atNames put? 0 (x :: w).getLast? s := by
  induction w generalizing x with
  | nil => rfl
  | cons y w ih => exact ih y

theorem opensName_choiceText {choice : String × String} {n : Nat} (h : choiceValue? s = some (choice, n)) :
    ∀ y ∈ choiceText choice, opensName (some y) = false := by
  obtain ⟨type, value⟩ := choice
  obtain ⟨c, t, d, v, rest, rfl, rfl, -, -, -, -, ht, hv⟩ := exists_choiceValue h
  intro y hy
  rw [choiceText, String.toList_ofList, String.toList_ofList, mem_append] at hy
  rcases hy with hy | hy
  · simp [opensName, ht y hy]
  · rcases mem_cons.mp hy with rfl | hy
    · rfl
    · simp [opensName, hv y hy]

/-- By induction on the pieces: the first value put in elsewhere has an underscore for a capital letter. -/
theorem flatMap_eq_atNames_iff (hput : ∀ choice put, put? choice = some put → put.head? = some '_')
    (before : Option Char)
    (s : List Char) :
    (pieces choiceValue? s).flatMap
        (Sum.elim List.singleton fun choice => (put? choice).getD (choiceText choice)) =
      atNames put? 0 before s ↔ Bounded put? before (pieces choiceValue? s) := by
  induction s using takes_choiceValue?.induction generalizing before with
  | nil => simp [pieces, piecesFrom, atNames, Bounded]
  | char x s hpieces hnone ih =>
    have hkeep : atNames put? 0 before (x :: s) = x :: atNames put? 0 (some x) s := by
      rw [atNames, hnone, ite_self]
    rw [hpieces, hkeep, flatMap_cons, Bounded, ← ih (some x)]
    exact cons_inj_right x
  | found choice s hpieces hfind ih =>
    have hclosed := opensName_choiceText hfind
    obtain ⟨hne, -, -⟩ := takes_choiceValue? _ _ _ hfind
    obtain ⟨x, w, hxw⟩ := exists_cons_of_ne_nil hne
    rw [hxw] at hclosed hfind
    rw [hpieces, flatMap_cons, Bounded, hxw, ← ih]
    cases hput' : put? choice with
    | none =>
      have hkeep : atNames put? 0 before (x :: (w ++ s)) = x :: atNames put? 0 (some x) (w ++ s) := by
        rw [atNames]
        split
        · next heq =>
          split at heq
          · rw [cons_append] at hfind
            obtain ⟨rfl, rfl⟩ := Prod.mk.inj (Option.some.inj (hfind.symm.trans heq))
            rw [hput']
          · cases heq
        · rfl
      rw [cons_append, hkeep, atNames_append hclosed]
      simp [hput', hxw]
    | some put =>
      by_cases hopens : opensName before = true
      · rw [cons_append, atNames, if_pos hopens, ← cons_append, hfind]
        dsimp only
        rw [hput', length_cons, Nat.add_sub_cancel, atNames_skip]
        simp [hput', hopens]
      · have hcapital : x ≠ '_' := by
          rintro rfl
          rw [cons_append, choiceValue?, capitalWord?] at hfind
          cases hfind
        rw [cons_append, atNames_keep (by simpa using hopens)]
        refine iff_of_false (fun heq => hcapital ?_) fun h => hopens (h.1 rfl)
        have hhead := congrArg List.head? heq
        simpa [hput', hput _ _ hput'] using hhead.symm

/-- Values of choices are resolved at the start of names only, exactly if none that the component sees stands
elsewhere. -/
theorem resolveChoices_bounded_iff (c : Component) (text : String) (r : Registry) :
    ∃ out, (run (resolveChoices c text) r).1 = .ok out ∧
      (out.toList = atNames (written? c r) 0 none text.toList ↔
        Bounded (written? c r) none (pieces choiceValue? text.toList)) := by
  have hout := answer_eq_some.mp (answer_replaceChoicePieces c r (pieces choiceValue? text.toList))
  refine ⟨_, congrArg Prod.fst (run_bind_of_ok (Prod.ext hout rfl)), ?_⟩
  rw [String.toList_ofList]
  refine flatMap_eq_atNames_iff ?_ none text.toList
  intro choice put hput
  obtain ⟨name, -, rfl⟩ := Option.map_eq_some_iff.mp hput
  simp

/-- A longer name and a name with its package are taken apart. -/
theorem longer_name_resolved :
    let c : Component := { name := "a.X", base := rootName, prototype := true }
    let r : Registry := { ns := "qml", buildId := "1", packages := ⟨[("core", ["Font"])]⟩ }
    answer r (resolveChoices c "myFont.Bold") = some "my_globals.core.Font.prototype.Bold" ∧
      answer r (resolveChoices c "core.Font.Bold") = some "core._globals.core.Font.prototype.Bold" ∧
      ∀ text ∈ ["myFont.Bold".toList, "core.Font.Bold".toList], atNames (written? c r) 0 none text = text := by
  decide +kernel

end QmlScript.Registry
