import Mathlib.Data.List.Induction
import QmlScript.Build
import QmlScript.Proofs.Looking
import QmlScript.Proofs.Table

/-!
# Discovering platforms

The names that are known at some moment, in the order in which they came up, tell all that is known about
platforms, so the discovery is a search among names. It ends with the names that can be reached, each once.
-/

namespace QmlScript.Build

open Job Relation List

variable {start known : List String} {name : String} {of : String → Platform}

/-- A platform: its directory, its manifest, and the names of what it needs. -/
structure Platform where
  directory : String
  manifest : Manifest
  needs : List String

/-- A platform is found under a name for the target. -/
structure Platform.IsFound (tree : FileTree) (root target : String) (packages : List String) (name : String)
    (platform : Platform) : Prop where
  directory : findPlatform tree root packages name = .ok platform.directory
  manifest : Compile.readManifest tree (Path.join platform.directory Compile.manifestFile) = .ok platform.manifest
  needs : needsOf target platform.manifest = .ok (platform.needs.map .str)

def Needs (of : String → Platform) (name need : String) : Prop := need ∈ (of name).needs

/-- A platform to start from, or one that they need, directly or not. -/
def Reached (of : String → Platform) (start : List String) (name : String) : Prop :=
  ∃ first ∈ start, ReflTransGen (Needs of) first name

theorem Reached.first (h : name ∈ start) : Reached of start name := ⟨name, h, .refl⟩

theorem Reached.need {name need : String}
    (h : Reached of start name) (hneed : need ∈ (of name).needs) : Reached of start need := by
  obtain ⟨first, hfirst, hway⟩ := h
  exact ⟨first, hfirst, hway.tail hneed⟩

/-- Come to a name, given the known ones and those for the next level. -/
def addName (of : String → Platform) (found : List String × List String) (name : String) :
    List String × List String :=
  if name ∈ found.1 then found else (found.1 ++ [name], found.2 ++ (of name).needs)

def explore (of : String → Platform) : (bound : Nat) → (known names : List String) → List String
  | 0, known, _ => known
  | _ + 1, known, [] => known
  | bound + 1, known, name :: names =>
    let found := (name :: names).foldl (addName of) (known, [])
    explore of bound found.1 found.2

/-- What a level comes to: the known names, and the next level. -/
structure IsLevel (of : String → Platform) (known names : List String) (found : List String × List String) :
    Prop where
  nodup : known.Nodup → found.1.Nodup
  mem_iff : ∀ name, name ∈ found.1 ↔ name ∈ known ∨ name ∈ names
  next_iff : ∀ need, need ∈ found.2 ↔ ∃ name ∈ found.1, name ∉ known ∧ need ∈ (of name).needs
  length : known.length ≤ found.1.length
  last : found.1.length = known.length → found = (known, [])

theorem isLevel_foldl (of : String → Platform) (known names : List String) :
    IsLevel of known names (names.foldl (addName of) (known, [])) := by
  induction names using List.reverseRecOn with
  | nil => exact ⟨id, by simp, fun need => by simp +contextual, le_rfl, fun _ => rfl⟩
  | append_singleton names name ih =>
    rw [foldl_append, foldl_cons, foldl_nil]
    generalize names.foldl (addName of) (known, []) = found at ih
    rw [addName]
    split
    · rename_i hname
      refine ⟨ih.nodup, fun other => ?_, ih.next_iff, ih.length, ih.last⟩
      rw [ih.mem_iff, mem_append, mem_singleton]
      constructor
      · exact Or.imp_right .inl
      · rintro (h | h | rfl)
        · exact .inl h
        · exact .inr h
        · exact (ih.mem_iff other).1 hname
    · rename_i hname
      refine ⟨fun hknown => ?_, fun other => ?_, fun need => ?_, ?_, fun hlength => ?_⟩
      · rw [← concat_eq_append]
        exact (ih.nodup hknown).concat hname
      · rw [mem_append, mem_append, ih.mem_iff, or_assoc]
      · have hnew : name ∉ known := fun h => hname ((ih.mem_iff name).2 (.inl h))
        simp only [mem_append, ih.next_iff, mem_singleton]
        constructor
        · rintro (⟨other, hother, hneed⟩ | hneed)
          · exact ⟨other, .inl hother, hneed⟩
          · exact ⟨name, .inr rfl, hnew, hneed⟩
        · rintro ⟨other, hother | rfl, hneed⟩
          · exact .inl ⟨other, hother, hneed⟩
          · exact .inr hneed.2
      · rw [length_append]
        exact ih.length.trans (Nat.le_add_right _ _)
      · rw [length_append, length_singleton] at hlength
        have := ih.length
        omega

section

variable {of : String → Platform} {start known names all : List String}

/-- What is known, and what is to come, at some moment of a search. -/
structure IsSearched (of : String → Platform) (start known names : List String) : Prop where
  nodup : known.Nodup
  reached : ∀ name, name ∈ known ∨ name ∈ names → Reached of start name
  start : ∀ name ∈ start, name ∈ known ∨ name ∈ names
  needs : ∀ name ∈ known, ∀ need ∈ (of name).needs, need ∈ known ∨ need ∈ names

theorem IsSearched.init (of : String → Platform) (start : List String) : IsSearched of start [] start :=
  ⟨nodup_nil, fun _ h => .first (h.resolve_left not_mem_nil), fun _ h => .inr h, fun _ h => absurd h not_mem_nil⟩

theorem IsSearched.level (h : IsSearched of start known names) {found : List String × List String}
    (hfound : IsLevel of known names found) : IsSearched of start found.1 found.2 := by
  have hreached : ∀ name ∈ found.1, Reached of start name := fun name hname =>
    h.reached name ((hfound.mem_iff name).1 hname)
  refine ⟨hfound.nodup h.nodup, fun name hname => ?_, fun name hname => ?_, fun name hname need hneed => ?_⟩
  · rcases hname with hname | hname
    · exact hreached name hname
    · obtain ⟨other, hother, -, hneed⟩ := (hfound.next_iff name).1 hname
      exact (hreached other hother).need hneed
  · exact .inl ((hfound.mem_iff name).2 (h.start name hname))
  · by_cases hknown : name ∈ known
    · exact .inl ((hfound.mem_iff need).2 (h.needs name hknown need hneed))
    · exact .inr ((hfound.next_iff need).2 ⟨name, hname, hknown, hneed⟩)

/-- When nothing is to come, all names that can be reached are known. -/
theorem IsSearched.mem_iff (h : IsSearched of start known []) (name : String) :
    name ∈ known ↔ Reached of start name := by
  constructor
  · exact fun hname => h.reached name (.inl hname)
  · rintro ⟨first, hfirst, hway⟩
    induction hway with
    | refl => exact (h.start first hfirst).resolve_right not_mem_nil
    | tail _ hneed ih => exact (h.needs _ ih _ hneed).resolve_right not_mem_nil

theorem explore_nil (of : String → Platform) (known : List String) (bound : Nat) :
    explore of bound known [] = known := by
  cases bound <;> rfl

/-- The search finds all that can be reached, each once, with enough levels: each but the last brings a name. -/
theorem isSearched_explore (hall : ∀ name, Reached of start name → name ∈ all)
    (h : IsSearched of start known names) (bound : Nat) (hbound : all.length < bound + known.length) :
    IsSearched of start (explore of bound known names) [] := by
  induction bound generalizing known names with
  | zero =>
    -- more names are known than there are
    have hknown : known.length ≤ all.length :=
      h.nodup.length_le_of_subset fun name hname => hall name (h.reached name (.inl hname))
    omega
  | succ bound ih =>
    cases names with
    | nil => rwa [explore_nil]
    | cons name names =>
      rw [explore]
      have hlevel := isLevel_foldl of known (name :: names)
      generalize (name :: names).foldl (addName of) (known, []) = found at hlevel ⊢
      have hfound := h.level hlevel
      rcases Nat.eq_or_lt_of_le hlevel.length with hlength | hlength
      · rw [hlevel.last hlength.symm] at hfound ⊢
        dsimp only at hfound ⊢
        rwa [explore_nil]
      · exact ih hfound (by omega)

end

/-- What is known of platforms with these names in order of discovery. -/
def Platforms.ofNames (of : String → Platform) (names : List String) : Platforms where
  paths := ⟨names.map fun name => (name, (of name).directory)⟩
  needs := ⟨names.map fun name => (name, orderedSet textLt (of name).needs)⟩
  manifests := (names.map fun name => (of name).manifest).reverse

section

variable {of : String → Platform} {tree : FileTree} {root target : String} {packages : List String}
  {names : List String}

theorem keys_paths_ofNames (of : String → Platform) (names : List String) :
    (Platforms.ofNames of names).paths.keys = names := by
  simp [Platforms.ofNames, Table.keys, Function.comp_def]

theorem keys_needs_ofNames (of : String → Platform) (names : List String) :
    (Platforms.ofNames of names).needs.keys = names := by
  simp [Platforms.ofNames, Table.keys, Function.comp_def]

@[simp] theorem texts_str (names : List String) : texts (names.map .str) = names := by
  simp [texts, filterMap_map]

theorem ofNames_append (h : name ∉ known) :
    Platforms.ofNames of (known ++ [name]) =
      { paths := (Platforms.ofNames of known).paths.insert name (of name).directory
        needs := (Platforms.ofNames of known).needs.insert name (orderedSet textLt (of name).needs)
        manifests := (of name).manifest :: (Platforms.ofNames of known).manifests } := by
  rw [Table.insert_of_not_mem (by rwa [keys_paths_ofNames]), Table.insert_of_not_mem (by rwa [keys_needs_ofNames])]
  simp [Platforms.ofNames]

theorem discoverOne_of_mem (h : name ∈ known) :
    discoverOne root target packages (.ofNames of known) (.str name) = pure (.ofNames of known, []) := by
  have hcontains : (Platforms.ofNames of known).paths.contains name = true := by
    rwa [Table.contains_iff, keys_paths_ofNames]
  unfold discoverOne
  simp only [hcontains, if_true]
  rfl

theorem answer_discoverOne (hname : name ∉ known) (h : (of name).IsFound tree root target packages name) :
    answer tree (discoverOne root target packages (.ofNames of known) (.str name)) =
      .ok (.ofNames of (known ++ [name]), (of name).needs.map .str) := by
  have hcontains : ¬(Platforms.ofNames of known).paths.contains name = true := by
    rwa [Table.contains_iff, keys_paths_ofNames]
  unfold discoverOne
  simp only [if_neg hcontains]
  rw [answer_ofExcept_bind (show Compile.checkHashable (.str name) = .ok () from rfl), answer_get_bind,
    answer_ofExcept_bind h.directory, answer_readManifest_bind h.manifest, answer_ofExcept_bind h.needs, texts_str,
    ofNames_append hname]
  rfl

instance (known : Platforms) (name : Json) : Looks (discoverOne root target packages known name) := by
  refine @Looks.bind _ _ _ _ inferInstance fun _ => ?_
  cases name with
  | str name =>
    dsimp only
    split
    · infer_instance
    · exact looks_get_bind fun _ _ h => by rw [h]
  | _ => exact inferInstanceAs (Looks (throw _))

theorem answer_addName (h : (of name).IsFound tree root target packages name) (found : List String × List String) :
    answer tree (discoverOne root target packages (.ofNames of found.1) (.str name) >>= fun result =>
        pure (result.1, found.2.map Json.str ++ result.2)) =
      .ok (.ofNames of (addName of found name).1, (addName of found name).2.map .str) := by
  rw [addName]
  split
  · rename_i hname
    rw [discoverOne_of_mem hname, pure_bind, append_nil]
    rfl
  · rename_i hname
    rw [answer_bind, answer_discoverOne hname h, map_append]
    rfl

theorem answer_discoverLevel
    (h : ∀ name ∈ names, (of name).IsFound tree root target packages name) (known : List String) :
    answer tree (discoverLevel root target packages (.ofNames of known) (names.map .str)) =
      .ok (.ofNames of (names.foldl (addName of) (known, [])).1,
        (names.foldl (addName of) (known, [])).2.map .str) := by
  suffices hlevel : ∀ found : List String × List String,
      answer tree ((names.map Json.str).foldlM (fun (state : Platforms × List Json) name =>
        discoverOne root target packages state.1 name >>= fun result => pure (result.1, state.2 ++ result.2))
        (Platforms.ofNames of found.1, found.2.map Json.str)) =
      .ok (.ofNames of (names.foldl (addName of) found).1, (names.foldl (addName of) found).2.map .str) from
    hlevel (known, [])
  induction names with
  | nil => exact fun _ => rfl
  | cons name names ih =>
    intro found
    rw [map_cons, foldlM_cons, answer_bind, answer_addName (h name mem_cons_self)]
    exact ih (fun name hname => h name (mem_cons_of_mem _ hname)) _

instance (known : Platforms) (names : List Json) : Looks (discoverLevel root target packages known names) := by
  unfold discoverLevel
  infer_instance

instance (bound : Nat) (known : Platforms) (names : List Json) :
    Looks (discover root target packages bound known names) := by
  induction bound generalizing known names with
  | zero => exact inferInstanceAs (Looks (pure known))
  | succ bound ih => cases names <;> unfold discover <;> infer_instance

theorem answer_discover (h : IsSearched of start known names)
    (hfound : ∀ name, Reached of start name → (of name).IsFound tree root target packages name) (bound : Nat) :
    answer tree (discover root target packages bound (.ofNames of known) (names.map .str)) =
      .ok (.ofNames of (explore of bound known names)) := by
  induction bound generalizing known names with
  | zero => rfl
  | succ bound ih =>
    cases names with
    | nil => rfl
    | cons name names =>
      have hnames : ∀ other ∈ name :: names, (of other).IsFound tree root target packages other :=
        fun other hother => hfound other (h.reached other (.inr hother))
      have hstep : discover root target packages (bound + 1) (.ofNames of known) ((name :: names).map .str) =
          discoverLevel root target packages (.ofNames of known) ((name :: names).map .str) >>= fun found =>
            discover root target packages bound found.1 found.2 := rfl
      rw [hstep, answer_bind, answer_discoverLevel hnames, explore]
      exact ih (h.level (isLevel_foldl of known (name :: names)))

theorem Platform.IsFound.mentioned {need : String} {platform : Platform}
    (h : platform.IsFound tree root target packages name) (hneed : need ∈ platform.needs) :
    need ∈ texts (Build.mentioned tree target) := by
  obtain ⟨text, htext, hread⟩ := Compile.exists_of_readManifest h.manifest
  obtain ⟨path, exact, hmem, rfl⟩ := FileTree.mem_files_of_read htext
  refine mem_filterMap.2 ⟨.str need, mem_flatMap.2 ⟨(path, exact), hmem, ?_⟩, rfl⟩
  dsimp only
  rw [hread]
  dsimp only
  rw [h.needs]
  exact mem_map_of_mem hneed

variable (tree target of) in
/-- The platforms that can be reached, in the order of discovery. -/
def discovered (start : List String) : List String :=
  explore of ((mentioned tree target).length + start.length + 1) [] start

theorem isSearched_discovered
    (hfound : ∀ name, Reached of start name → (of name).IsFound tree root target packages name) :
    IsSearched of start (discovered of tree target start) [] := by
  have hall : ∀ name, Reached of start name → name ∈ texts (mentioned tree target) ++ start := by
    rintro name ⟨first, hfirst, hway⟩
    rw [mem_append]
    cases hway with
    | refl => exact .inr hfirst
    | tail hfront hneed => exact .inl ((hfound _ ⟨first, hfirst, hfront⟩).mentioned hneed)
  have hlength : (texts (mentioned tree target)).length ≤ (mentioned tree target).length :=
    length_filterMap_le _ _
  exact isSearched_explore hall (.init of start) _ (by rw [length_append, length_nil]; omega)

end

end QmlScript.Build
