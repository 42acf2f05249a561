import QmlScript.Proofs.Marking
import QmlScript.Proofs.Scanning

namespace QmlScript.Script

open List Option

open Text (isBlank isWordChar)

variable {s : List Char} {c : Component}

/-! ## Values of choices -/

theorem code_of_isUpper {c : Char} (h : c.isUpper = true) : 65 ≤ c.toNat ∧ c.toNat ≤ 90 := of_decide_eq_true h

theorem exists_capitalWord {word rest : List Char} (h : capitalWord? s = some (word, rest)) :
    ∃ c w, word = c :: w ∧ s = word ++ rest ∧ c.isUpper = true ∧ ∀ x ∈ word, isWordChar x = true := by
  unfold capitalWord? at h
  split at h
  · next c tail =>
    split at h
    · next hc =>
      have hword : isWordChar c = true := by
        have halnum : c.isAlphanum = true := Bool.or_inl (Bool.or_inl hc)
        rw [isWordChar, if_pos (Nat.lt_of_le_of_lt (code_of_isUpper hc).2 (by decide)), halnum]
        rfl
      obtain ⟨rfl, rfl⟩ := Prod.mk.inj (Option.some.inj h)
      rw [takeWhile_cons_of_pos hword]
      refine ⟨c, _, rfl, ?_, hc, ?_⟩
      · rw [cons_append, takeWhile_append_dropWhile]
      · rintro x (_ | ⟨_, hx⟩)
        · exact hword
        · exact mem_takeWhile_imp hx
    · cases h
  · cases h

theorem exists_choiceValue {type value : String} {n : Nat} (h : choiceValue? s = some ((type, value), n)) :
    ∃ c t d v rest, type = String.ofList (c :: t) ∧ value = String.ofList (d :: v) ∧
      s = c :: t ++ '.' :: (d :: v ++ rest) ∧ n = (c :: t).length + 1 + (d :: v).length ∧
      c.isUpper = true ∧ d.isUpper = true ∧ (∀ x ∈ c :: t, isWordChar x = true) ∧
        ∀ x ∈ d :: v, isWordChar x = true := by
  unfold choiceValue? at h
  obtain ⟨⟨word, rest⟩, hword, hvalue⟩ := bind_eq_some_iff.mp h
  obtain ⟨c, t, rfl, rfl, hc, ht⟩ := exists_capitalWord hword
  dsimp only at hvalue
  split at hvalue
  · obtain ⟨⟨word', rest'⟩, hword', hfound⟩ := bind_eq_some_iff.mp hvalue
    obtain ⟨d, v, rfl, rfl, hd, hv⟩ := exists_capitalWord hword'
    obtain ⟨hboth, rfl⟩ := Prod.mk.inj (Option.some.inj hfound)
    obtain ⟨rfl, rfl⟩ := Prod.mk.inj hboth
    exact ⟨c, t, d, v, rest', rfl, rfl, rfl, rfl, hc, hd, ht, hv⟩
  · cases hvalue

def choiceText (choice : String × String) : List Char := choice.1.toList ++ '.' :: choice.2.toList

theorem takes_choiceValue? : Text.Takes choiceValue? choiceText := by
  rintro s ⟨type, value⟩ n h
  obtain ⟨c, t, d, v, rest, rfl, rfl, rfl, rfl, -⟩ := exists_choiceValue h
  refine ⟨by simp [choiceText], ?_, rest, by simp [choiceText]⟩
  simp [choiceText]
  omega

theorem replaceChoicePieces_append {m : Type → Type} [Monad m] [LawfulMonad m] (find : String → m (Option String))
    (u : List Char)
    (pieces : List (Char ⊕ (String × String))) :
    replaceChoicePieces find (u.map .inl ++ pieces) = (u ++ ·) <$> replaceChoicePieces find pieces := by
  induction u with
  | nil => simp
  | cons c u ih => simp [replaceChoicePieces, ih]

end QmlScript.Script

namespace QmlScript.Registry

open QmlScript.Script List Option

def Knows (c : Component) (r : Registry) (type : String) : Prop :=
  ∃ name s, run (find c.package type true {}) r = (.ok name, s)

def seen (c : Component) (type : String) : Work (Option String) := do
  try return some (← find c.package type true {})
  catch _ => return none

instance (type : String) : Resolves (seen c type) := by
  unfold seen
  infer_instance

theorem answer_seen (c : Component) (type : String) (r : Registry) :
    answer r (seen c type) = some (answer r (find c.package type true {})) := by
  rw [answer, seen, run_try, answer]
  rcases run (find c.package type true {}) r with ⟨e | name, s⟩ <;> rfl

theorem knows_iff {type : String} {r : Registry} :
    Knows c r type ↔ ∃ name, answer r (find c.package type true {}) = some name := by
  simp only [Knows, answer_eq_some]
  exact exists_congr fun name => ⟨fun ⟨_, h⟩ => by rw [h], fun h => ⟨_, Prod.ext h rfl⟩⟩

theorem run_seen_of_not_knows {type : String} {r : Registry} (h : ¬ Knows c r type) :
    run (seen c type) r = (.ok none, r) := by
  rw [seen, run_try]
  rcases hrun : run (find c.package type true {}) r with ⟨e | name, s⟩
  · rw [run_find] at hrun
    split at hrun
    · cases hrun
    · split at hrun <;> cases hrun
      rfl
  · exact absurd ⟨name, s, hrun⟩ h

/-- Work on a text goes on behind a stretch without values of choices. -/
theorem run_resolveChoices_append {front body text : String} {r r' : Registry}
    (h : ∀ w, w ≠ [] → w <:+ front.toList → choiceValue? (w ++ body.toList) = none)
    (hbody : run (resolveChoices c body) r = (.ok text, r')) :
    run (resolveChoices c (front ++ body)) r = (.ok (front ++ text), r') := by
  obtain ⟨chars, s, hpieces, hend⟩ := run_bind_ok hbody
  rw [resolveChoices, replaceChoices, String.toList_append, Text.pieces_append h, replaceChoicePieces_append,
    map_eq_pure_bind]
  have hfront := run_bind_of_ok (f := fun chars => pure (front.toList ++ chars)) hpieces
  refine (run_bind_of_ok hfront).trans ?_
  cases hend
  simp [run_pure]

/-- What the value of a choice becomes, if the component sees its type. -/
def written? (c : Component) (r : Registry) (choice : String × String) : Option (List Char) :=
  (answer r (find c.package choice.1 true {})).map fun name =>
    ("_globals." ++ name ++ ".prototype." ++ choice.2).toList

theorem answer_replaceChoicePieces (c : Component) (r : Registry) (pieces : List (Char ⊕ (String × String))) :
    answer r (replaceChoicePieces (seen c) pieces) =
      some (pieces.flatMap (Sum.elim List.singleton fun choice => (written? c r choice).getD (choiceText choice))) := by
  induction pieces with
  | nil => rfl
  | cons piece pieces ih =>
    cases piece with
    | inl x =>
      rw [replaceChoicePieces, answer_bind, ih]
      rfl
    | inr choice =>
      rw [replaceChoicePieces]
      dsimp only
      rw [answer_bind, answer_seen, bind_some, answer_bind, ih]
      cases hfind : answer r (find c.package choice.1 true {}) with
      | none => simp [written?, hfind, choiceText]
      | some name => simp [written?, hfind]

theorem run_replaceChoicePieces_of_not_knows {r : Registry} {pieces : List (Char ⊕ (String × String))}
    (h : ∀ choice, .inr choice ∈ pieces → ¬ Knows c r choice.1) :
    run (replaceChoicePieces (seen c) pieces) r = (.ok (pieces.flatMap (Sum.elim List.singleton choiceText)), r) := by
  induction pieces with
  | nil => rfl
  | cons piece pieces ih =>
    have hrest := ih fun choice hmem => h choice (mem_cons_of_mem _ hmem)
    cases piece with
    | inl x => exact run_bind_of_ok hrest
    | inr choice =>
      rw [replaceChoicePieces, run_bind_of_ok (run_seen_of_not_knows (h choice mem_cons_self)),
        run_bind_of_ok hrest, run_pure]
      simp [choiceText]

/-- Resolving values of choices never fails. The text stays, or becomes a later one: an underscore for a capital
letter. -/
theorem run_resolveChoices (c : Component) (text : String) (r : Registry) :
    ∃ out r', run (resolveChoices c text) r = (.ok out, r') ∧
      ((∀ choice ∈ Text.findAll choiceValue? text.toList, ¬ Knows c r choice.1) ∧ out = text ∧ r' = r ∨
        (∃ choice ∈ Text.findAll choiceValue? text.toList, Knows c r choice.1) ∧ text.toList < out.toList) := by
  have htext := takes_choiceValue?.flatMap_pieces text.toList
  simp only [Text.mem_findAll_iff]
  by_cases hknown : ∃ choice, .inr choice ∈ Text.pieces choiceValue? text.toList ∧ Knows c r choice.1
  · have hout := answer_eq_some.mp (answer_replaceChoicePieces c r (Text.pieces choiceValue? text.toList))
    refine ⟨_, _, run_bind_of_ok (Prod.ext hout rfl), .inr ⟨hknown, ?_⟩⟩
    rw [String.toList_ofList]
    conv_lhs => rw [← htext]
    have hlater : ∀ choice, .inr choice ∈ Text.pieces choiceValue? text.toList → Knows c r choice.1 →
        Text.Later (choiceText choice) ((written? c r choice).getD (choiceText choice)) := by
      intro choice hmem hknown
      obtain ⟨name, hname⟩ := knows_iff.mp hknown
      obtain ⟨_, _, -, h⟩ := takes_choiceValue?.exists_find hmem
      obtain ⟨d, t, -, -, -, htype, -, -, -, hd, -⟩ := exists_choiceValue h
      refine ⟨d, '_', _, _, Char.lt_def.mpr ?_, by rw [choiceText, htype, String.toList_ofList]; rfl,
        by simp [written?, hname]; rfl⟩
      exact UInt32.lt_iff_toNat_lt.mpr (Nat.lt_of_le_of_lt (code_of_isUpper hd).2 (by decide))
    refine Text.flatMap_lt_flatMap _ _ (fun choice hmem => ?_) (hknown.imp fun choice h => ⟨h.1, hlater choice h.1 h.2⟩)
    by_cases hchoice : Knows c r choice.1
    · exact .inr (hlater choice hmem hchoice)
    · rw [knows_iff, ← isSome_iff_exists, not_isSome_iff_eq_none] at hchoice
      exact .inl (by rw [written?, hchoice]; rfl)
  · have hnone : ∀ choice, .inr choice ∈ Text.pieces choiceValue? text.toList → ¬ Knows c r choice.1 :=
      fun choice hmem h => hknown ⟨choice, hmem, h⟩
    refine ⟨_, r, run_bind_of_ok (run_replaceChoicePieces_of_not_knows hnone), .inl ⟨hnone, ?_, rfl⟩⟩
    rw [htext, String.ofList_toList]

variable {parent text : String} {transform : String → Work String} {r r' : Registry} {deps : List Dependency}
  {pieces : List (Char ⊕ String)} {out : List Char}

/-- Whether a reference depends on nothing: one into the manifest, or to a parent. -/
def dependsOnNothing (inside : String) : Bool :=
  match splitText '.' inside with
  | "manifest" :: _ :: _ => true
  | "model" :: _ :: _ => false
  | path => path.getLastD "" = "parent"

theorem resolve_eq_ok {inside script : String} {dep : Option Dependency}
    (h : run (resolve parent transform inside) r = (.ok (script, dep), r')) :
    (dep = none ↔ dependsOnNothing inside = true) ∧
      ∃ rest, script = "$manifest$" ++ rest ∨ script = parent ++ "." ++ rest := by
  unfold resolve at h
  dsimp only at h
  split at h
  · next path heq =>
    obtain ⟨rfl, rfl⟩ := Prod.mk.inj (Except.ok.inj (Prod.mk.inj h).1)
    exact ⟨by simp [dependsOnNothing, heq], _, .inl (by rw [heq, String.intercalate_cons_cons]; simp; rfl)⟩
  · next heq =>
    obtain ⟨_, _, -, h⟩ := run_bind_ok h
    obtain ⟨rfl, rfl⟩ := Prod.mk.inj (Except.ok.inj (Prod.mk.inj h).1)
    exact ⟨by simp [dependsOnNothing, heq], _, .inr rfl⟩
  · next hmanifest hmodel =>
    have hboth : ∃ object rest, dep = (if (splitText '.' inside).getLastD "" = "parent" then none
        else some (object, (splitText '.' inside).getLastD "")) ∧ script = parent ++ "." ++ rest := by
      split at h
      all_goals
        obtain ⟨object, _, -, h⟩ := run_bind_ok h
        obtain ⟨rest, _, -, h⟩ := run_bind_ok h
        obtain ⟨rfl, rfl⟩ := Prod.mk.inj (Except.ok.inj (Prod.mk.inj h).1)
        exact ⟨object, rest, rfl, rfl⟩
    obtain ⟨object, rest, rfl, rfl⟩ := hboth
    refine ⟨?_, rest, .inr rfl⟩
    have hnothing : dependsOnNothing inside = decide ((splitText '.' inside).getLastD "" = "parent") := by
      unfold dependsOnNothing
      split
      · next heq => exact (hmanifest _ _ heq).elim
      · next heq => exact (hmodel _ _ heq).elim
      · rfl
    rw [hnothing]
    split <;> simp_all

/-- The pieces of a text, its script and what the script depends on. -/
inductive Resolved (parent : String) : List (Char ⊕ String) → List Char → List Dependency → Prop
  | nil : Resolved parent [] [] []
  | char (c : Char) {pieces : List (Char ⊕ String)} {out : List Char} {deps : List Dependency}
    (rest : Resolved parent pieces out deps) : Resolved parent (.inl c :: pieces) (c :: out) deps
  | reference {inside script rest : String} {dep : Option Dependency} {pieces : List (Char ⊕ String)}
    {out : List Char} {deps : List Dependency} (hdep : dep = none ↔ dependsOnNothing inside = true)
    (hscript : script = "$manifest$" ++ rest ∨ script = parent ++ "." ++ rest)
    (rest : Resolved parent pieces out deps) :
    Resolved parent (.inr inside :: pieces) (script.toList ++ out) (dep.toList ++ deps)

theorem resolved_of_run (h : run (resolvePieces parent transform pieces) r = (.ok (out, deps), r')) :
    Resolved parent pieces out deps := by
  induction pieces generalizing r r' out deps with
  | nil =>
    obtain ⟨rfl, rfl⟩ := Prod.mk.inj (Except.ok.inj (Prod.mk.inj h).1)
    exact .nil
  | cons piece pieces ih =>
    cases piece with
    | inl c =>
      obtain ⟨⟨out, deps⟩, s, hrest, h⟩ := run_bind_ok h
      obtain ⟨rfl, rfl⟩ := Prod.mk.inj (Except.ok.inj (Prod.mk.inj h).1)
      exact .char c (ih hrest)
    | inr inside =>
      obtain ⟨⟨script, dep⟩, s, hone, h⟩ := run_bind_ok h
      obtain ⟨⟨out, deps⟩, s', hrest, h⟩ := run_bind_ok h
      obtain ⟨rfl, rfl⟩ := Prod.mk.inj (Except.ok.inj (Prod.mk.inj h).1)
      obtain ⟨hdep, rest, hscript⟩ := resolve_eq_ok hone
      exact .reference hdep hscript (ih hrest)

theorem Resolved.deps_eq_nil_iff (h : Resolved parent pieces out deps) :
    deps = [] ↔ ∀ inside, .inr inside ∈ pieces → dependsOnNothing inside = true := by
  induction h with
  | nil => simp
  | char c _ ih => simpa using ih
  | reference hdep _ _ ih => simp [hdep, ih]

def referenceText (inside : String) : List Char := "$\x7b".toList ++ (inside.toList ++ ['\x7d'])

theorem takes_reference? : Text.Takes reference? referenceText := by
  intro s inside n h
  unfold reference? at h
  split at h
  · next s =>
    dsimp only at h
    split at h
    · next rest heq =>
      obtain ⟨rfl, rfl⟩ := Prod.mk.inj (Option.some.inj h)
      refine ⟨by simp [referenceText], by simp [referenceText], rest, ?_⟩
      rw [Text.drop_length_takeWhile] at heq
      have hs := takeWhile_append_dropWhile (p := fun c => c ≠ '\x7d' && c ≠ '\n') (l := s)
      rw [heq] at hs
      simpa [referenceText] using hs
    · cases h
  · cases h

theorem Resolved.eq_of_flatMap (h : Resolved parent pieces out deps) (hparent : '\x7b' ∉ parent.toList)
    (heq : out = pieces.flatMap (Sum.elim List.singleton referenceText)) (inside : String) : .inr inside ∉ pieces := by
  induction h with
  | nil => simp
  | char c _ ih =>
    have := ih (List.cons.inj heq).2
    simpa using this
  | reference hdep hscript _ ih =>
    rw [flatMap_cons] at heq
    rcases hscript with rfl | rfl
    · simp [referenceText] at heq
    · rcases hlist : parent.toList with _ | ⟨c, _ | ⟨d, rest⟩⟩
      · simp [hlist, referenceText] at heq
      · simp [hlist, referenceText] at heq
      · simp only [String.toList_append, hlist] at heq
        obtain rfl : d = '\x7b' := (List.cons.inj (List.cons.inj heq).2).1
        simp [hlist] at hparent

/-- Whether a text has no call of a localizing function, and references that depend on nothing. -/
def selfContained (s : List Char) : Bool :=
  !isLocalized s && (Text.findAll reference? s).all dependsOnNothing

theorem dependencies_eq_nil_iff {script : String}
    (h : run (dependencies parent text transform) r = (.ok (script, deps), r')) :
    deps = [] ↔ selfContained text.toList = true := by
  obtain ⟨⟨out, found⟩, s, hpieces, h⟩ := run_bind_ok h
  obtain ⟨rfl, rfl⟩ := Prod.mk.inj (Except.ok.inj (Prod.mk.inj h).1)
  rw [orderedSet_eq_nil_iff, append_eq_nil_iff, (resolved_of_run hpieces).deps_eq_nil_iff]
  simp [selfContained, Text.mem_findAll_iff]

end QmlScript.Registry
