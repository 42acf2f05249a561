import Mathlib.Data.List.Induction
import QmlScript.Codec
import QmlScript.Compile.Project
import QmlScript.Proofs.Paths

/-!
# The packages of files

While a walk stays inside a package, the package of a file is that of the nearest directory around it whose
manifest names one. Having left it, though, the walk does not go back to a package further out but to the one
that is named like the directory of the project.
-/

namespace QmlScript

open List

variable {tree : FileTree} {before after : List Station} {directory : String}

namespace FileTree

open QmlScript.Path

mutual

/-- Everything in a tree has a name of files, and no two things in a directory the same. -/
def IsNamed : FileTree → Prop
  | .file _ => True
  | .dir entries => AreNamed entries

def AreNamed : List (String × FileTree) → Prop
  | [] => True
  | (name, tree) :: entries =>
    IsName name ∧ (∀ entry ∈ entries, entry.1 ≠ name) ∧ IsNamed tree ∧ AreNamed entries

end

mutual

instance decIsNamed : DecidablePred IsNamed
  | .file _ => .isTrue trivial
  | .dir entries => decAreNamed entries

instance decAreNamed : DecidablePred AreNamed
  | [] => .isTrue trivial
  | (_, tree) :: entries => have := decIsNamed tree; have := decAreNamed entries; inferInstanceAs (Decidable (_ ∧ _))

end

theorem IsNamed.child? {name : String} {entries : List (String × FileTree)}
    (h : AreNamed entries) (hchild : child? name entries = some tree) : tree.IsNamed := by
  induction entries with
  | nil => cases hchild
  | cons entry entries ih =>
    obtain ⟨other, tree'⟩ := entry
    rw [FileTree.child?] at hchild
    split at hchild
    · cases hchild
      exact h.2.2.1
    · exact ih h.2.2.2 hchild

theorem IsNamed.at? {found : FileTree} {place : List String} (h : tree.IsNamed)
    (hfound : tree.at? place = some found) : found.IsNamed := by
  induction place generalizing tree with
  | nil =>
    rw [FileTree.at?] at hfound
    exact Option.some.inj hfound ▸ h
  | cons name place ih =>
    cases tree with
    | file text => cases hfound
    | dir entries =>
      rw [FileTree.at?] at hfound
      split at hfound
      · rename_i tree hchild
        exact ih (IsNamed.child? h hchild) hfound
      · cases hfound

theorem find_eq_ok {found : FileTree} {path : String} :
    tree.find path = .ok found ↔ ∃ place, tree.locate path = .ok place ∧ tree.at? place = some found := by
  unfold find
  cases tree.locate path with
  | error problem => simp [bind, Except.bind]
  | ok place =>
    rcases hplace : tree.at? place with _ | other
    · simp [bind, Except.bind, hplace, throw, throwThe, MonadExceptOf.throw]
    · simp [bind, Except.bind, hplace, pure, Except.pure]

theorem IsNamed.find {found : FileTree} {path : String} (h : tree.IsNamed)
    (hfound : tree.find path = .ok found) : found.IsNamed := by
  obtain ⟨place, -, hat⟩ := find_eq_ok.1 hfound
  exact h.at? hat

variable {enter : List String → String → Bool}

mutual

theorem mem_visits {path : String} {visit : Visit} :
    ∀ {tree : FileTree}, tree.IsNamed → visit ∈ visits enter path tree →
      ∃ names, simplified visit.path = simplified path ++ names ∧ ∀ name ∈ names, IsName name
  | .file _, _, hvisit => by rw [visits] at hvisit; cases hvisit
  | .dir entries, h, hvisit => by
    rw [visits] at hvisit
    rcases mem_cons.mp hvisit with rfl | hvisit
    · exact ⟨[], (append_nil _).symm, fun _ hname => nomatch hname⟩
    · obtain ⟨name, -, names, hpath, hnames⟩ := mem_visitsIn h hvisit
      exact ⟨name :: names, hpath, hnames⟩

theorem mem_visitsIn {path : String} {files : List String} {visit : Visit} :
    ∀ {entries : List (String × FileTree)}, AreNamed entries → visit ∈ visitsIn enter path files entries →
      ∃ name, (∃ entry ∈ entries, entry.1 = name) ∧
        ∃ names, simplified visit.path = simplified path ++ name :: names ∧ ∀ other ∈ name :: names, IsName other
  | [], _, hvisit => by rw [visitsIn] at hvisit; cases hvisit
  | (name, tree) :: entries, h, hvisit => by
    rw [visitsIn] at hvisit
    rcases mem_append.mp hvisit with hvisit | hvisit
    · split at hvisit
      · obtain ⟨names, hpath, hnames⟩ := mem_visits h.2.2.1 hvisit
        rw [simplified_join h.1, append_assoc] at hpath
        exact ⟨name, ⟨_, mem_cons_self, rfl⟩, names, hpath, forall_mem_cons.mpr ⟨h.1, hnames⟩⟩
      · cases hvisit
    · obtain ⟨other, ⟨entry, hentry, hname⟩, hrest⟩ := mem_visitsIn h.2.2.2 hvisit
      exact ⟨other, ⟨entry, mem_cons_of_mem _ hentry, hname⟩, hrest⟩

end

/-- A directory is not around one that a walk came to before, nor the same. -/
def IsAfter (earlier later : Visit) : Prop := ¬simplified later.path <+: simplified earlier.path

mutual

theorem pairwise_visits (path : String) :
    ∀ {tree : FileTree}, tree.IsNamed → (visits enter path tree).Pairwise IsAfter
  | .file _, _ => by rw [visits]; exact .nil
  | .dir entries, h => by
    rw [visits]
    refine .cons (fun visit hvisit hprefix => ?_) (pairwise_visitsIn path _ h)
    obtain ⟨name, -, names, hpath, -⟩ := mem_visitsIn h hvisit
    have hlength := hprefix.length_le
    simp only [hpath, length_append, length_cons] at hlength
    omega

theorem pairwise_visitsIn (path : String) (files : List String) :
    ∀ {entries : List (String × FileTree)}, AreNamed entries → (visitsIn enter path files entries).Pairwise IsAfter
  | [], _ => by rw [visitsIn]; exact .nil
  | (name, tree) :: entries, h => by
    rw [visitsIn, pairwise_append]
    refine ⟨?_, pairwise_visitsIn path files h.2.2.2, fun earlier hearlier later hlater hprefix => ?_⟩
    · split
      · exact pairwise_visits _ h.2.2.1
      · exact .nil
    · split at hearlier
      · obtain ⟨names, hpath, -⟩ := mem_visits h.2.2.1 hearlier
        obtain ⟨other, ⟨entry, hentry, rfl⟩, names', hpath', -⟩ := mem_visitsIn h.2.2.2 hlater
        rw [simplified_join h.1, append_assoc] at hpath
        rw [hpath, hpath', prefix_append_right_inj, singleton_append, cons_prefix_cons] at hprefix
        exact h.2.1 entry hentry hprefix.1
      · cases hearlier

end

end FileTree

namespace Compile

open QmlScript.Path

/-! ## The package of a walk -/

/-- The package named last, and the directories passed since. -/
structure Stay where
  naming : Naming
  since : List Station := []

def Stay.pass (stay : Stay) (station : Station) : Stay :=
  if station.package.isTruthy then
    { naming := { directory := station.path, name := station.package }, since := [station] }
  else { stay with since := stay.since ++ [station] }

def Stay.IsKept (stay : Stay) : Prop :=
  ∀ station ∈ stay.since, station.files ≠ [] → IsIn station.path stay.naming.directory

instance (stay : Stay) : Decidable stay.IsKept := inferInstanceAs (Decidable (∀ station ∈ stay.since, _))

/-- The package a walk is in: the last one named, or that of the project if the walk has left it. -/
def Stay.current (stay : Stay) (project : String) : Naming :=
  if stay.IsKept then stay.naming else .ofProject project

theorem isKept_append {stay : Stay} {station : Station} : Stay.IsKept { stay with since := stay.since ++ [station] } ↔
      stay.IsKept ∧ (station.files ≠ [] → IsIn station.path stay.naming.directory) := by
  simp [Stay.IsKept, or_imp, forall_and]

theorem at_eq (naming : Naming) (project directory : String) :
    naming.at project directory = if IsIn directory naming.directory then naming else .ofProject project := by
  unfold Naming.at
  by_cases h : IsIn directory naming.directory
  · rw [(startsWithText_relative _ _).mpr h, if_neg Bool.false_ne_true, if_pos h]
  · rw [if_pos (Bool.eq_true_of_not_eq_false (mt (startsWithText_relative _ _).mp h)), if_neg h]

/-- A walk is in the package that was named last until it leaves it. -/
theorem pass_current (project : String) (stay : Stay) (station : Station) :
    (stay.current project).pass project station = (stay.pass station).current project := by
  unfold Naming.pass Naming.enter Stay.pass
  by_cases hnamed : station.package.isTruthy
  · -- a package that starts in a directory has the files there
    have hkept : Stay.IsKept ⟨⟨station.path, station.package⟩, [station]⟩ := fun other hother _ => by
      rw [mem_singleton.mp hother]
      exact .refl _
    simp only [if_pos hnamed, at_eq, if_pos (IsIn.refl station.path), ite_self]
    exact (if_pos hkept).symm
  · simp only [if_neg hnamed]
    unfold Stay.current
    by_cases hfiles : station.files = []
    · have hkept : Stay.IsKept { stay with since := stay.since ++ [station] } ↔ stay.IsKept :=
        isKept_append.trans (and_iff_left fun hne => absurd hfiles hne)
      simp only [hfiles, isEmpty_nil, if_true, hkept]
    · have hkept : Stay.IsKept { stay with since := stay.since ++ [station] } ↔
          stay.IsKept ∧ IsIn station.path stay.naming.directory :=
        isKept_append.trans (and_congr_right' (imp_iff_right hfiles))
      rw [if_neg (by simpa using hfiles), at_eq]
      by_cases hstay : stay.IsKept
      · simp only [hkept, hstay, true_and, if_true]
      · -- nothing leads back out of the package of the project
        simp only [hkept, hstay, false_and, if_false, ite_self]

theorem foldl_pass (project : String) (stay : Stay) (passed : List Station) :
    passed.foldl (Naming.pass project) (stay.current project) = (passed.foldl Stay.pass stay).current project := by
  induction passed generalizing stay with
  | nil => rfl
  | cons station passed ih => rw [foldl_cons, foldl_cons, pass_current, ih]

/-! ## Steps for files -/

theorem path_station (platforms : List String) (tree : FileTree) (visit : FileTree.Visit) :
    (station platforms tree visit).path = visit.path := by
  unfold station
  split
  · split <;> rfl
  · rfl

variable {package directory file : String} {naming : Naming} {station : Station}

theorem file_mem_steps (h : Step.file package directory file ∉ station.before) (naming : Naming) :
    Step.file package directory file ∈ station.steps naming ↔
      station.path = directory ∧ file ∈ station.files ∧ naming.packageOf directory = .ok package := by
  unfold Station.steps
  rw [mem_append, or_iff_right h]
  constructor
  · intro hstep
    split at hstep
    · rename_i package' hpackage
      obtain ⟨file', hfile, heq⟩ := mem_map.mp hstep
      obtain ⟨rfl, rfl, rfl⟩ := Step.file.inj heq
      exact ⟨rfl, hfile, hpackage⟩
    · split at hstep <;> simp at hstep
  · rintro ⟨rfl, hfile, hpackage⟩
    rw [hpackage]
    exact mem_map_of_mem hfile

theorem file_mem_plan (project : String) {stations : List Station}
    (h : ∀ station ∈ stations, Step.file package directory file ∉ station.before) (naming : Naming) :
    Step.file package directory file ∈ plan project naming stations ↔
      ∃ before station after, stations = before ++ station :: after ∧ station.path = directory ∧
        file ∈ station.files ∧
        ((before ++ [station]).foldl (Naming.pass project) naming).packageOf directory = .ok package := by
  induction stations generalizing naming with
  | nil => simp [plan]
  | cons first stations ih =>
    rw [forall_mem_cons] at h
    rw [plan, mem_append, file_mem_steps h.1, ih h.2]
    constructor
    · rintro (hfirst | ⟨before, station, after, rfl, hrest⟩)
      · exact ⟨[], first, stations, rfl, hfirst⟩
      · exact ⟨first :: before, station, after, rfl, hrest⟩
    · rintro ⟨before, station, after, hsplit, hrest⟩
      cases before with
      | nil =>
        obtain ⟨rfl, rfl⟩ := List.cons.inj hsplit
        exact .inl hrest
      | cons other before =>
        obtain ⟨rfl, rfl⟩ := List.cons.inj hsplit
        exact .inr ⟨before, station, after, rfl, hrest⟩

/-! ## The way to a directory -/

/-- The package of a directory by manifests: that of the nearest directory around it that names one, or the first. -/
inductive Naming.IsOnWay (stations : List Station) (start : Naming) (directory : String) : Naming → Prop
  | named {station : Station} (mem : station ∈ stations) (isNamed : station.package.isTruthy)
      (around : simplified station.path <+: simplified directory)
      (nearest : ∀ other ∈ stations, other.package.isTruthy → simplified other.path <+: simplified directory →
        simplified other.path <+: simplified station.path) :
      IsOnWay stations start directory ⟨station.path, station.package⟩
  | start (none : ∀ other ∈ stations, other.package.isTruthy →
        ¬simplified other.path <+: simplified directory) :
      IsOnWay stations start directory start

def InOrder (stations : List Station) : Prop :=
  stations.Pairwise fun earlier later => ¬simplified later.path <+: simplified earlier.path

theorem InOrder.eq_of_simplified {stations : List Station} (h : InOrder stations) {a b : Station}
    (ha : a ∈ stations) (hb : b ∈ stations) (hab : simplified a.path = simplified b.path) : a = b := by
  have hnodup : (stations.map fun station => simplified station.path).Nodup :=
    pairwise_map.mpr (h.imp fun hnot heq => hnot (by simp [heq]))
  exact inj_on_of_nodup_map hnodup ha hb hab

theorem Naming.IsOnWay.unique {stations : List Station} (h : InOrder stations) {start naming naming' : Naming}
    (hnaming : IsOnWay stations start directory naming) (hnaming' : IsOnWay stations start directory naming') :
    naming = naming' := by
  cases hnaming with
  | @named a ha hnamed haround hnearest =>
    cases hnaming' with
    | @named b hb hnamed' haround' hnearest' =>
      have hab := hnearest' a ha hnamed haround
      have hba := hnearest b hb hnamed' haround'
      have heq := h.eq_of_simplified ha hb (hab.eq_of_length_le hba.length_le)
      rw [heq]
    | start hnone => exact absurd haround (hnone a ha hnamed)
  | start hnone =>
    cases hnaming' with
    | @named b hb hnamed' haround' hnearest' => exact absurd haround' (hnone b hb hnamed')
    | start => rfl

theorem naming_foldl_pass (start : Naming) (passed : List Station) :
    (∀ station ∈ passed, ¬station.package.isTruthy) ∧ (passed.foldl Stay.pass { naming := start }).naming = start ∨
      ∃ front last back, passed = front ++ last :: back ∧ last.package.isTruthy ∧
        (∀ station ∈ back, ¬station.package.isTruthy) ∧
        (passed.foldl Stay.pass { naming := start }).naming = ⟨last.path, last.package⟩ := by
  induction passed using List.reverseRecOn with
  | nil => exact .inl ⟨fun _ hstation => absurd hstation not_mem_nil, rfl⟩
  | append_singleton passed station ih =>
    rw [foldl_append, foldl_cons, foldl_nil, Stay.pass]
    by_cases hnamed : station.package.isTruthy
    · rw [if_pos hnamed]
      exact .inr ⟨passed, station, [], rfl, hnamed, fun _ hstation => absurd hstation not_mem_nil, rfl⟩
    · rw [if_neg hnamed]
      rcases ih with ⟨hnone, hstart⟩ | ⟨front, last, back, rfl, hlast, hback, hnaming⟩
      · exact .inl ⟨forall_mem_append.mpr ⟨hnone, forall_mem_singleton.mpr hnamed⟩, hstart⟩
      · have hback' := forall_mem_append.mpr ⟨hback, forall_mem_singleton.mpr hnamed⟩
        exact .inr ⟨front, last, back ++ [station], by simp, hlast, hback', hnaming⟩

/-- While the walk stays in the last package, that is the one on the way. -/
theorem isOnWay_of_isKept (start : Naming)
    (h : InOrder (before ++ station :: after)) (hfiles : station.files ≠ [])
    (hkept : ((before ++ [station]).foldl Stay.pass { naming := start }).IsKept) :
    Naming.IsOnWay (before ++ station :: after) start station.path
      ((before ++ [station]).foldl Stay.pass { naming := start }).naming := by
  have hstations : before ++ station :: after = (before ++ [station]) ++ after := by simp
  -- what comes later is not around the directory
  have hlater : ∀ other ∈ after, ¬simplified other.path <+: simplified station.path := by
    rw [InOrder, pairwise_append, pairwise_cons] at h
    exact h.2.1.1
  have hin : IsIn station.path ((before ++ [station]).foldl Stay.pass { naming := start }).naming.directory := by
    refine hkept station ?_ hfiles
    rw [foldl_append, foldl_cons, foldl_nil, Stay.pass]
    split <;> simp
  rcases naming_foldl_pass start (before ++ [station]) with
    ⟨hnone, hnaming⟩ | ⟨front, last, back, hpassed, hlast, hback, hnaming⟩
  · rw [hnaming]
    refine .start fun other hother hnamed => ?_
    rw [hstations, mem_append] at hother
    rcases hother with hother | hother
    · exact absurd hnamed (hnone other hother)
    · exact hlater other hother
  · rw [hnaming] at hin ⊢
    rw [hstations, hpassed] at h ⊢
    refine .named (by simp) hlast hin.1 fun other hother hnamed haround => ?_
    rw [append_assoc, mem_append, cons_append, mem_cons, mem_append] at hother
    rcases hother with hother | rfl | hother | hother
    · -- of two directories around it, the one that comes first is the outer one
      rw [InOrder, append_assoc, pairwise_append] at h
      have hnot := h.2.2 other hother last (by simp)
      exact (List.prefix_or_prefix_of_prefix haround hin.1).resolve_right hnot
    · exact prefix_rfl
    · exact absurd hnamed (hback other hother)
    · exact absurd haround (hlater other hother)

/-! ## Names of packages -/

/-- The package of files: a name, and the directories from where it starts. -/
def Naming.Gives (naming : Naming) (directory package : String) : Prop :=
  ∃ name below, naming.name = .str name ∧ simplified directory = simplified naming.directory ++ below ∧
    package = joinText "." (name :: below)

theorem packageOf_eq_ok_iff {below : List String}
    (h : simplified directory = simplified naming.directory ++ below) (hnames : ∀ name ∈ below, IsName name) :
    naming.packageOf directory = .ok package ↔ naming.Gives directory package := by
  unfold Naming.packageOf Naming.Gives
  simp only [segments_relative h hnames]
  cases naming.name with
  | str name =>
    constructor
    · intro hpackage
      exact ⟨name, below, rfl, h, (Except.ok.inj hpackage).symm⟩
    · rintro ⟨name', below', hname, hbelow, rfl⟩
      rw [h, append_right_inj] at hbelow
      rw [Json.str.inj hname, hbelow]
  | _ => simp

theorem Naming.Gives.unique {package' : String} (h : naming.Gives directory package)
    (h' : naming.Gives directory package') : package = package' := by
  obtain ⟨name, below, hname, hbelow, rfl⟩ := h
  obtain ⟨name', below', hname', hbelow', rfl⟩ := h'
  rw [hname] at hname'
  rw [hbelow, append_right_inj] at hbelow'
  rw [Json.str.inj hname', hbelow']

/-! ## Walks through projects -/

theorem directory_start (project : String) (root : Json) : (Naming.start project root).directory = project := by
  unfold Naming.start
  split <;> rfl

section

variable {tree : FileTree} (htree : tree.IsNamed) (platforms : List String) (project : String)
include htree

/-- A walk comes to each directory once, before those inside. -/
theorem inOrder_stations : InOrder (stations platforms tree project) := by
  unfold InOrder stations visits
  rw [pairwise_map]
  simp only [path_station]
  refine List.Pairwise.filter _ ?_
  unfold FileTree.walk
  split
  · rename_i found hfound
    exact FileTree.pairwise_visits project (htree.find hfound)
  · exact .nil

theorem below_of_mem_stations (h : station ∈ stations platforms tree project) :
    ∃ names, simplified station.path = simplified project ++ names ∧ ∀ name ∈ names, IsName name := by
  obtain ⟨visit, hvisit, rfl⟩ := mem_map.mp h
  have hwalk := mem_of_mem_filter hvisit
  rw [path_station]
  unfold FileTree.walk at hwalk
  split at hwalk
  · rename_i found hfound
    exact FileTree.mem_visits (htree.find hfound) hwalk
  · cases hwalk

theorem below_of_isOnWay {root : Json} {names : List String}
    (hdirectory : simplified directory = simplified project ++ names) (hnames : ∀ name ∈ names, IsName name)
    (hnaming : Naming.IsOnWay (stations platforms tree project) (.start project root) directory naming) :
    ∃ below, simplified directory = simplified naming.directory ++ below ∧ ∀ name ∈ below, IsName name := by
  cases hnaming with
  | start _ => exact ⟨names, by rw [directory_start, hdirectory], hnames⟩
  | named mem _ around _ =>
    obtain ⟨front, hfront, -⟩ := below_of_mem_stations htree platforms project mem
    obtain ⟨below, hbelow⟩ := around
    rw [hfront, hdirectory, append_assoc, append_right_inj] at hbelow
    refine ⟨below, ?_, fun name hname => hnames name (hbelow ▸ mem_append_right _ hname)⟩
    rw [hfront, hdirectory, append_assoc, hbelow]

end

/-- The directories that a walk passes until it comes to one, and that one. -/
def upTo (directory : String) : List Station → List Station
  | [] => []
  | station :: stations => if station.path = directory then [station] else station :: upTo directory stations

theorem upTo_eq (h : InOrder (before ++ station :: after)) :
    upTo station.path (before ++ station :: after) = before ++ [station] := by
  induction before with
  | nil => exact if_pos rfl
  | cons first before ih =>
    obtain ⟨hfirst, hrest⟩ := pairwise_cons.mp h
    have hne : first.path ≠ station.path := fun heq => hfirst station (by simp) (by simp [heq])
    exact (if_neg hne).trans (congrArg _ (ih hrest))

/-- The package that was named last when a walk comes to a directory. -/
def stayAt (start : Naming) (directory : String) (stations : List Station) : Stay :=
  (upTo directory stations).foldl Stay.pass { naming := start }

theorem current_eq_iff (start : Naming) (project : String)
    (h : InOrder (before ++ station :: after)) (hfiles : station.files ≠ []) (naming : Naming) :
    naming = (stayAt start station.path (before ++ station :: after)).current project ↔
      if (stayAt start station.path (before ++ station :: after)).IsKept then
        Naming.IsOnWay (before ++ station :: after) start station.path naming
      else naming = .ofProject project := by
  rw [stayAt, upTo_eq h, Stay.current]
  by_cases hkept : ((before ++ [station]).foldl Stay.pass { naming := start }).IsKept
  · rw [if_pos hkept, if_pos hkept]
    have hway := isOnWay_of_isKept start h hfiles hkept
    exact ⟨fun heq => heq ▸ hway, fun hnaming => hnaming.unique h hway⟩
  · rw [if_neg hkept, if_neg hkept]

section

variable {tree : FileTree} (htree : tree.IsNamed) (platforms : List String) (project : String) (root : Json)
include htree

theorem packageOf_current
    (h : stations platforms tree project = before ++ station :: after) (hfiles : station.files ≠ [])
    (package : String) :
    ((before ++ [station]).foldl (Naming.pass project) (.start project root)).packageOf station.path =
        .ok package ↔
      ((stayAt (.start project root) station.path (before ++ station :: after)).current project).Gives
        station.path package := by
  have horder := h ▸ inOrder_stations htree platforms project
  have hmem : station ∈ stations platforms tree project := h ▸ mem_append_right _ mem_cons_self
  obtain ⟨names, hstation, hnames⟩ := below_of_mem_stations htree platforms project hmem
  have hstart : Stay.current { naming := .start project root } project = .start project root :=
    if_pos fun _ hnone => absurd hnone not_mem_nil
  have hcurrent := (current_eq_iff (.start project root) project horder hfiles _).mp rfl
  have hbelow : ∃ below, simplified station.path =
      simplified ((stayAt (.start project root) station.path
        (before ++ station :: after)).current project).directory ++ below ∧
          ∀ name ∈ below, IsName name := by
    split at hcurrent
    · rw [← h] at hcurrent ⊢
      exact below_of_isOnWay htree platforms project hstation hnames hcurrent
    · rw [hcurrent]
      exact ⟨names, hstation, hnames⟩
  obtain ⟨below, hway, hbelow⟩ := hbelow
  rw [← packageOf_eq_ok_iff hway hbelow, stayAt, upTo_eq horder, ← foldl_pass, hstart]

theorem file_mem_plan_stations (package directory file : String) :
    Step.file package directory file ∈ plan project (.start project root) (stations platforms tree project) ↔
      (∃ station ∈ stations platforms tree project, station.path = directory ∧ file ∈ station.files) ∧
      ∃ naming : Naming, naming.Gives directory package ∧
        if (stayAt (.start project root) directory (stations platforms tree project)).IsKept then
          Naming.IsOnWay (stations platforms tree project) (.start project root) directory naming
        else naming = .ofProject project := by
  have hbefore : ∀ station ∈ stations platforms tree project, Step.file package directory file ∉ station.before := by
    intro station hstation
    obtain ⟨visit, -, rfl⟩ := mem_map.mp hstation
    unfold station
    split
    · split <;> simp
    · simp
  have horder := inOrder_stations htree platforms project
  rw [file_mem_plan project hbefore]
  constructor
  · rintro ⟨before, station, after, hsplit, rfl, hfile, hpackage⟩
    have hfiles := ne_nil_of_mem hfile
    rw [packageOf_current htree platforms project root hsplit hfiles] at hpackage
    rw [hsplit] at horder ⊢
    exact ⟨⟨station, by simp, rfl, hfile⟩, _, hpackage, (current_eq_iff _ project horder hfiles _).mp rfl⟩
  · rintro ⟨⟨station, hstation, rfl, hfile⟩, naming, hpackage, hnaming⟩
    obtain ⟨before, after, hsplit⟩ := append_of_mem hstation
    have hfiles := ne_nil_of_mem hfile
    refine ⟨before, station, after, hsplit, rfl, hfile, ?_⟩
    rw [packageOf_current htree platforms project root hsplit hfiles]
    rw [hsplit] at horder hnaming
    exact (current_eq_iff _ project horder hfiles naming).mpr hnaming ▸ hpackage

end

def SameAround (directory : String) (stations stations' : List Station) : Prop :=
  ∀ path package, package.isTruthy → simplified path <+: simplified directory →
    ((∃ station ∈ stations, station.path = path ∧ station.package = package) ↔
      ∃ station ∈ stations', station.path = path ∧ station.package = package)

/-- The package of the way depends only on manifests on the way. -/
theorem Naming.IsOnWay.congr {stations stations' : List Station} {start naming : Naming}
    (h : SameAround directory stations stations') (hnaming : IsOnWay stations start directory naming) :
    IsOnWay stations' start directory naming := by
  have hback : ∀ other ∈ stations', other.package.isTruthy → simplified other.path <+: simplified directory →
      ∃ station ∈ stations, station.path = other.path ∧ station.package = other.package :=
    fun other hother hnamed haround => (h other.path other.package hnamed haround).mpr ⟨other, hother, rfl, rfl⟩
  cases hnaming with
  | @named station mem isNamed around nearest =>
    obtain ⟨station', mem', hpath, hpackage⟩ :=
      (h station.path station.package isNamed around).mp ⟨station, mem, rfl, rfl⟩
    rw [← hpath, ← hpackage]
    refine .named mem' (hpackage ▸ isNamed) (hpath ▸ around) fun other hother hnamed haround => ?_
    obtain ⟨first, hfirst, hpath', hpackage'⟩ := hback other hother hnamed haround
    rw [hpath, ← hpath']
    exact nearest first hfirst (hpackage' ▸ hnamed) (hpath' ▸ haround)
  | start none =>
    refine .start fun other hother hnamed haround => ?_
    obtain ⟨first, hfirst, hpath', hpackage'⟩ := hback other hother hnamed haround
    exact none first hfirst (hpackage' ▸ hnamed) (hpath' ▸ haround)

/-- The package of a file is that of the nearest directory around it whose manifest names one, or the one that
the walk starts in, as long as the walk has not left the package that was named last; otherwise it is named like
the directory of the project. -/
theorem package_of_file {tree : FileTree} (htree : tree.IsNamed) (platforms : List String) (project : String)
    (root : Json) (directory file : String) :
    (∀ package,
      Step.file package directory file ∈ plan project (.start project root) (stations platforms tree project) ↔
        (∃ station ∈ stations platforms tree project, station.path = directory ∧ file ∈ station.files) ∧
        ∃ naming : Naming, naming.Gives directory package ∧
          if (stayAt (.start project root) directory (stations platforms tree project)).IsKept then
            Naming.IsOnWay (stations platforms tree project) (.start project root) directory naming
          else naming = .ofProject project) ∧
    ∀ tree' : FileTree, tree'.IsNamed →
      SameAround directory (stations platforms tree project) (stations platforms tree' project) →
      (stayAt (.start project root) directory (stations platforms tree project)).IsKept →
      (stayAt (.start project root) directory (stations platforms tree' project)).IsKept →
      ∀ package package',
        Step.file package directory file ∈
          plan project (.start project root) (stations platforms tree project) →
        Step.file package' directory file ∈
          plan project (.start project root) (stations platforms tree' project) →
        package = package' := by
  refine ⟨fun package => file_mem_plan_stations htree platforms project root package directory file, ?_⟩
  intro tree' htree' hsame hkept hkept' package package' hstep hstep'
  obtain ⟨-, naming, hgives, hnaming⟩ := (file_mem_plan_stations htree platforms project root _ _ _).mp hstep
  obtain ⟨-, naming', hgives', hnaming'⟩ :=
    (file_mem_plan_stations htree' platforms project root _ _ _).mp hstep'
  rw [if_pos hkept] at hnaming
  rw [if_pos hkept'] at hnaming'
  have heq := (hnaming.congr hsame).unique (inOrder_stations htree' platforms project) hnaming'
  exact hgives.unique (heq ▸ hgives')

/-! ## Packages beside each other -/

def manifestNaming (package : String) : FileTree := .file (Json.obj [("package", .str package)]).text

/-- A project with its own package, and a directory between two others. -/
def betweenDirectories (first last : List (String × FileTree)) : FileTree :=
  .dir [("src", .dir [(manifestFile, manifestNaming "P"), ("a", .dir first),
    ("b", .dir [("Thing.qml", .file "")]), ("c", .dir last)])]

def fileOf? : Step → Option (String × String × String)
  | .file package directory file => some (package, directory, file)
  | _ => none

theorem mem_filterMap_fileOf? {steps : List Step} {package file : String} :
    (package, directory, file) ∈ steps.filterMap fileOf? ↔ Step.file package directory file ∈ steps := by
  rw [mem_filterMap]
  constructor
  · rintro ⟨step, hstep, hfile⟩
    cases step with
    | file =>
      cases hfile
      exact hstep
    | _ => cases hfile
  · exact fun hstep => ⟨_, hstep, rfl⟩

/-- The directories around one whose manifests name packages. -/
def namedAround (directory : String) (stations : List Station) : List (String × Json) :=
  (stations.filter fun station => station.package.isTruthy ∧ simplified station.path <+: simplified directory).map
    fun station => (station.path, station.package)

theorem sameAround_of_namedAround {stations stations' : List Station}
    (h : namedAround directory stations = namedAround directory stations') :
    SameAround directory stations stations' := by
  intro path package hnamed haround
  have hmem : ∀ stations : List Station, (∃ station ∈ stations, station.path = path ∧ station.package = package) ↔
      (path, package) ∈ namedAround directory stations := by
    intro stations
    simp only [namedAround, mem_map, mem_filter, Prod.mk.injEq]
    constructor
    · rintro ⟨station, hstation, rfl, rfl⟩
      exact ⟨station, ⟨hstation, decide_eq_true ⟨hnamed, haround⟩⟩, rfl, rfl⟩
    · rintro ⟨station, ⟨hstation, -⟩, hpath, hpackage⟩
      exact ⟨station, hstation, hpath, hpackage⟩
  rw [hmem, hmem, h]

/-- A manifest behind the files does not matter. -/
theorem package_of_file_between :
    (betweenDirectories [] []).IsNamed ∧
      Step.file "P.b" "src/b" "Thing.qml" ∈ plan "src" (.start "src" .null)
        (stations [] (betweenDirectories [] []) "src") ∧
      ∀ package, Step.file package "src/b" "Thing.qml" ∈ plan "src" (.start "src" .null)
        (stations [] (betweenDirectories [] [(manifestFile, manifestNaming "C")]) "src") → package = "P.b" := by
  have hnamed : (betweenDirectories [] []).IsNamed := by decide
  have hstep : Step.file "P.b" "src/b" "Thing.qml" ∈ plan "src" (.start "src" .null)
      (stations [] (betweenDirectories [] []) "src") := by
    rw [← mem_filterMap_fileOf?]
    decide +kernel
  have hsame : SameAround "src/b" (stations [] (betweenDirectories [] []) "src")
      (stations [] (betweenDirectories [] [(manifestFile, manifestNaming "C")]) "src") :=
    sameAround_of_namedAround (by decide +kernel)
  refine ⟨hnamed, hstep, fun package hstep' => ?_⟩
  exact ((package_of_file hnamed [] "src" .null "src/b" "Thing.qml").2 _ (by decide) hsame (by decide +kernel)
    (by decide +kernel) _ _ hstep hstep').symm

/-- A package that starts in a directory moves the files beside it out of the package around both. -/
theorem package_left_behind :
    Step.file "P.b" "src/b" "Thing.qml" ∈
        plan "src" (.start "src" .null) (stations [] (betweenDirectories [] []) "src") ∧
      Step.file "P.b" "src/b" "Thing.qml" ∉ plan "src" (.start "src" .null)
        (stations [] (betweenDirectories [(manifestFile, manifestNaming "A")] []) "src") ∧
      Step.file "src.b" "src/b" "Thing.qml" ∈ plan "src" (.start "src" .null)
        (stations [] (betweenDirectories [(manifestFile, manifestNaming "A")] []) "src") := by
  simp only [← mem_filterMap_fileOf?]
  decide +kernel

end Compile

end QmlScript
