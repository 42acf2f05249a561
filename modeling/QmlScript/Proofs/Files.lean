import QmlScript.FileTree

/-!
# Laws of file trees

What writing a file changes: the file then has the text that was written, and everything else is as it was, so
that all paths lead where they led.
-/

namespace QmlScript.FileTree

open Option

variable {name text : String} {tree new : FileTree} {entries : List (String × FileTree)}
  {place place' target : List String} {path : String}

theorem child?_setEntry (name other : String) (new : FileTree) (entries : List (String × FileTree)) :
    child? other (setEntry name new entries) = if name = other then some new else child? other entries := by
  induction entries with
  | nil => rfl
  | cons entry entries ih =>
    obtain ⟨n, t⟩ := entry
    rw [setEntry]
    by_cases hname : n = name
    · subst hname
      rw [if_pos rfl, child?, child?]
      by_cases hother : n = other <;> simp [hother]
    · rw [if_neg hname]
      by_cases hfront : textLt name n = true
      · rw [if_pos hfront, child?]
      · rw [if_neg hfront, child?, ih, child?]
        by_cases hother : name = other
        · subst hother
          rw [if_neg hname, if_pos rfl, if_pos rfl]
        · rw [if_neg hother, if_neg hother]

/-- What stands at a place: nothing, a directory, or a file with its text. -/
def shape? (tree : FileTree) (place : List String) : Option (Option String) :=
  (tree.at? place).map fun
    | .dir _ => none
    | .file text => some text

theorem shape?_cons (name : String) (place : List String) :
    (dir entries).shape? (name :: place) = (child? name entries).bind fun tree => tree.shape? place := by
  rw [shape?, at?]
  cases child? name entries <;> rfl

theorem shape?_file_cons (text name : String) (place : List String) : (file text).shape? (name :: place) = none := rfl

/-- A place for a file: there is one, or a directory to put it in. -/
def Offers (tree : FileTree) (place : List String) : Prop :=
  (∃ old, tree.shape? place = some (some old)) ∨ tree.shape? place = none ∧ tree.shape? place.dropLast = some none

/-- By induction on the way to the file: only directories on the way change. -/
theorem shape?_put (h : tree.Offers target) (text : String) (place : List String) :
    (tree.put target (.file text)).shape? place = if place = target then some (some text) else tree.shape? place := by
  induction target generalizing tree place with
  | nil =>
    rcases h with ⟨old, hold⟩ | ⟨hnone, -⟩
    · cases tree with
      | dir entries => cases hold
      | file old => cases place <;> rfl
    · cases hnone
  | cons name names ih =>
    cases tree with
    | file old =>
      rcases h with ⟨old, hold⟩ | ⟨-, hparent⟩
      · cases hold
      · cases names <;> cases hparent
    | dir entries =>
      cases names with
      | nil =>
        rw [put]
        cases place with
        | nil => rfl
        | cons other rest =>
          rw [shape?_cons, shape?_cons, child?_setEntry]
          by_cases hother : name = other
          · subst hother
            rw [if_pos rfl]
            cases rest with
            | nil => simp [shape?, at?]
            | cons next rest =>
              rw [if_neg (by simp), bind_some, shape?_file_cons]
              rcases hchild : child? name entries with _ | ⟨_ | kept⟩
              · rfl
              · rfl
              · simp [Offers, shape?, at?, hchild] at h
          · rw [if_neg hother, if_neg (by simp [Ne.symm hother])]
      | cons next names =>
        cases hchild : child? name entries with
        | none => simp [Offers, shape?_cons, hchild] at h
        | some sub =>
          have hsub : sub.Offers (next :: names) := by simpa [Offers, shape?_cons, hchild] using h
          have hput : (dir entries).put (name :: next :: names) (file text) =
              dir (setEntry name (sub.put (next :: names) (file text)) entries) := by
            rw [put, hchild]
            rintro ⟨⟩
          rw [hput]
          cases place with
          | nil => rfl
          | cons other rest =>
            simp only [shape?_cons, child?_setEntry]
            by_cases hother : name = other
            · subst hother
              rw [if_pos rfl, bind_some, ih hsub, hchild, bind_some]
              simp
            · rw [if_neg hother, if_neg (by simp [Ne.symm hother])]

theorem follow_cons (tree : FileTree) (place : List String) (segment : String) (rest : List String) :
    tree.follow place (segment :: rest) =
      match tree.shape? place with
      | none => .error .missing
      | some (some _) => .error .notDirectory
      | some none =>
        if segment = "" || segment = "." then tree.follow place rest
        else if segment = ".." then tree.follow place.dropLast rest
        else tree.follow (place ++ [segment]) rest := by
  rw [follow, shape?]
  rcases tree.at? place with _ | ⟨_ | _⟩ <;> rfl

/-- A file put into a tree replaces no directory, so that paths lead where they led. -/
theorem follow_put (h : tree.Offers target) (text : String) (segments : List String) :
    (tree.put target (.file text)).follow place segments = .ok place' ↔ tree.follow place segments = .ok place' := by
  induction segments generalizing place with
  | nil => exact .rfl
  | cons segment rest ih =>
    rw [follow_cons, follow_cons, shape?_put h]
    by_cases hplace : place = target
    · subst hplace
      rw [if_pos rfl]
      rcases h with ⟨old, hold⟩ | ⟨hnone, -⟩
      · rw [hold]
      · rw [hnone]
        exact iff_of_false (by rintro ⟨⟩) (by rintro ⟨⟩)
    · rw [if_neg hplace]
      rcases tree.shape? place with _ | ⟨_ | old⟩
      · exact .rfl
      · dsimp only
        split
        · exact ih
        · split <;> exact ih
      · exact .rfl

theorem locate_put (h : tree.Offers target) (text : String) (path : String) :
    (tree.put target (.file text)).locate path = .ok place ↔ tree.locate path = .ok place := by
  unfold locate
  split
  · exact .rfl
  · exact follow_put h text _

theorem readExact_eq_ok :
    tree.readExact path = .ok text ↔ ∃ place, tree.locate path = .ok place ∧ tree.shape? place = some (some text) := by
  unfold readExact find refuse shape?
  cases tree.locate path with
  | error problem => exact iff_of_false (by rintro ⟨⟩) (by rintro ⟨_, ⟨⟩, -⟩)
  | ok place =>
    simp only [Except.ok.injEq, exists_eq_left', bind, Except.bind]
    rcases tree.at? place with _ | ⟨other | entries⟩
    · exact iff_of_false (by rintro ⟨⟩) (by rintro ⟨⟩)
    · exact ⟨fun h => congrArg (fun t => some (some t)) (Except.ok.inj h),
        fun h => congrArg Except.ok (some.inj (some.inj h))⟩
    · exact iff_of_false (by rintro ⟨⟩) (by rintro ⟨⟩)

theorem write_eq_ok : tree.write path text = .ok new ↔
    ∃ place, tree.locate path = .ok place ∧ tree.Offers place ∧ new = tree.put place (.file text) := by
  unfold write refuse Offers shape?
  cases tree.locate path with
  | error problem => exact iff_of_false (by rintro ⟨⟩) (by rintro ⟨_, ⟨⟩, -⟩)
  | ok place =>
    simp only [Except.ok.injEq, exists_eq_left', bind, Except.bind]
    rcases tree.at? place with _ | ⟨other | entries⟩
    · rcases tree.at? place.dropLast with _ | ⟨other | entries⟩
      · exact iff_of_false (by rintro ⟨⟩) (by simp)
      · exact iff_of_false (by rintro ⟨⟩) (by simp)
      · exact ⟨fun h => ⟨by simp, (Except.ok.inj h).symm⟩, fun h => congrArg Except.ok h.2.symm⟩
    · exact ⟨fun h => ⟨by simp, (Except.ok.inj h).symm⟩, fun h => congrArg Except.ok h.2.symm⟩
    · exact iff_of_false (by rintro ⟨⟩) (by simp)

/-- A file is read as it was written, and others as before. -/
theorem readExact_write (h : tree.write path text = .ok new) :
    new.readExact path = .ok text ∧
      ∀ other read, new.readExact other = .ok read → read = text ∨ tree.readExact other = .ok read := by
  obtain ⟨place, hplace, hoffers, rfl⟩ := write_eq_ok.mp h
  refine ⟨readExact_eq_ok.mpr ⟨place, (locate_put hoffers text path).mpr hplace, ?_⟩, fun other read hread => ?_⟩
  · rw [shape?_put hoffers, if_pos rfl]
  · obtain ⟨place', hplace', hshape⟩ := readExact_eq_ok.mp hread
    rw [shape?_put hoffers] at hshape
    split at hshape
    · exact .inl (some.inj (some.inj hshape)).symm
    · exact .inr (readExact_eq_ok.mpr ⟨place', (locate_put hoffers text other).mp hplace', hshape⟩)

theorem exists_write (h : tree.readExact path = .ok text) (next : String) : ∃ new, tree.write path next = .ok new := by
  obtain ⟨place, hplace, hshape⟩ := readExact_eq_ok.mp h
  exact ⟨_, write_eq_ok.mpr ⟨place, hplace, .inl ⟨text, hshape⟩, rfl⟩⟩

theorem has_of_readExact (h : tree.readExact path = .ok text) : tree.has path = true := by
  rw [readExact] at h
  rw [has]
  cases hfind : tree.find path with
  | error problem => rw [hfind] at h; cases h
  | ok found => rfl

theorem mem_filesIn (h : child? name entries = some tree) {file : String × String}
    (hfile : file ∈ filesFrom (Path.join path name) tree) :
    file ∈ filesIn path entries := by
  induction entries with
  | nil => cases h
  | cons entry entries ih =>
    obtain ⟨other, tree'⟩ := entry
    rw [child?] at h
    rw [filesIn, List.mem_append]
    split at h
    · rename_i hname
      cases h
      exact .inl (hname ▸ hfile)
    · exact .inr (ih h)

theorem mem_filesFrom (h : tree.at? place = some (.file text)) (path : String) :
    ∃ path', (path', text) ∈ filesFrom path tree := by
  induction place generalizing tree path with
  | nil =>
    rw [at?] at h
    rw [some.inj h, filesFrom]
    exact ⟨path, List.mem_singleton.2 rfl⟩
  | cons name place ih =>
    cases tree with
    | file other => cases h
    | dir entries =>
      rw [at?] at h
      cases hchild : child? name entries with
      | none =>
        rw [hchild] at h
        cases h
      | some inner =>
        rw [hchild] at h
        obtain ⟨path', hmem⟩ := ih h (Path.join path name)
        exact ⟨path', mem_filesIn hchild hmem⟩

theorem mem_files_of_readExact (h : tree.readExact path = .ok text) : ∃ path', (path', text) ∈ tree.files := by
  obtain ⟨place, -, hshape⟩ := readExact_eq_ok.mp h
  refine @mem_filesFrom _ _ place ?_ ""
  rcases hat : tree.at? place with _ | ⟨other | entries⟩ <;> rw [shape?, hat] at hshape <;> cases hshape
  rfl

theorem mem_files_of_read (h : tree.read path = .ok text) :
    ∃ path' exact, (path', exact) ∈ tree.files ∧ text = String.ofList (Text.unifyBreaks exact.toList) := by
  rw [read] at h
  cases hread : tree.readExact path with
  | error e =>
    rw [hread] at h
    cases h
  | ok exact =>
    rw [hread] at h
    obtain ⟨path', hmem⟩ := mem_files_of_readExact hread
    exact ⟨path', exact, hmem, (Except.ok.inj h).symm⟩

end QmlScript.FileTree
