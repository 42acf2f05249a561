import QmlScript.Proofs.PackageNames

/-!
# What a walk comes to

A walk comes to directories by the paths that lead to them, so all files that it comes past can be read.
-/

namespace QmlScript.FileTree

open QmlScript.Path List

variable {tree : FileTree}
variable {place : List String} {entries : List (String × FileTree)} {name path : String}

theorem follow_append (place front back : List String) :
    tree.follow place (front ++ back) = tree.follow place front >>= fun place => tree.follow place back := by
  induction front generalizing place with
  | nil => rfl
  | cons segment front ih =>
    rw [cons_append, follow, follow]
    split
    · rfl
    · rfl
    · split
      · exact ih place
      · split <;> exact ih _

theorem follow_name (h : IsName name)
    (hplace : tree.at? place = some (.dir entries)) : tree.follow place [name] = .ok (place ++ [name]) := by
  rw [follow, hplace]
  simp [h.1, h.2.1, h.2.2.1, follow]

theorem follow_empty {found : List String} (h : tree.follow place [""] = .ok found) : found = place := by
  rw [follow] at h
  split at h
  · cases h
  · cases h
  · cases h
    rfl

theorem locate_join (h : IsName name)
    (hpath : tree.locate path = .ok place) (hplace : tree.at? place = some (.dir entries)) :
    tree.locate (join path name) = .ok (place ++ [name]) := by
  unfold locate at hpath
  split at hpath
  · cases hpath
  · rename_i hempty
    have hsegments : ∃ front, tree.follow [] front = .ok place ∧ segments (join path name) = front ++ [name] := by
      unfold join
      rw [startsWithText_slash h, if_neg Bool.false_ne_true]
      by_cases hend : endsWithText "/" path
      · obtain ⟨front, rfl⟩ := Registry.endsWithText_iff.mp hend
        rw [segments_slash, follow_append] at hpath
        obtain ⟨found, hfront, hpath⟩ := of_bind_eq_ok hpath
        obtain rfl := follow_empty hpath
        simp only [hend, Bool.or_true, if_true]
        exact ⟨segments front, hfront, by rw [segments_append, segments_of_isName h]⟩
      · simp only [hempty, hend, decide_false, Bool.or_false, Bool.false_eq_true, if_false]
        exact ⟨segments path, hpath, by rw [segments_append, segments_of_isName h]⟩
    obtain ⟨front, hfront, hsegments⟩ := hsegments
    have hjoin : join path name ≠ "" := by
      intro hjoin
      have hname := congrArg List.getLast? (hjoin ▸ hsegments)
      rw [getLast?_concat, show segments "" = [""] by decide] at hname
      exact h.1 (Option.some.inj hname).symm
    rw [locate, if_neg hjoin, hsegments, follow_append, hfront]
    exact follow_name h hplace

theorem at?_append (front back : List String) : tree.at? (front ++ back) = (tree.at? front).bind (·.at? back) := by
  induction front generalizing tree with
  | nil => rfl
  | cons name front ih =>
    cases tree with
    | file text => rfl
    | dir entries =>
      rw [cons_append, at?, at?]
      cases child? name entries with
      | none => rfl
      | some inner => exact ih

theorem find_join {found : FileTree} (h : IsName name)
    (hpath : tree.find path = .ok (.dir entries)) (hfound : child? name entries = some found) :
    tree.find (join path name) = .ok found := by
  obtain ⟨place, hplace, hdir⟩ := find_eq_ok.1 hpath
  refine find_eq_ok.2 ⟨place ++ [name], locate_join h hplace hdir, ?_⟩
  rw [at?_append, hdir, Option.bind_some, at?, hfound]
  rfl

theorem AreNamed.child? (h : AreNamed entries) {entry : String × FileTree}
    (hentry : entry ∈ entries) : IsName entry.1 ∧ FileTree.child? entry.1 entries = some entry.2 := by
  induction entries with
  | nil => cases hentry
  | cons first entries ih =>
    obtain ⟨name, found⟩ := first
    rw [FileTree.child?]
    rcases mem_cons.1 hentry with rfl | hentry
    · exact ⟨h.1, if_pos rfl⟩
    · rw [if_neg (Ne.symm (h.2.1 entry hentry))]
      exact ih h.2.2.2 hentry

variable {enter : List String → String → Bool} {visit : Visit}

mutual

theorem find_of_mem_visits {path : String} :
    ∀ {found : FileTree}, found.IsNamed → tree.find path = .ok found → visit ∈ visits enter path found →
      ∃ entries, tree.find visit.path = .ok (.dir entries) ∧ AreNamed entries ∧ visit.files = fileNames entries
  | .file _, _, _, hvisit => by rw [visits] at hvisit; cases hvisit
  | .dir entries, h, hfound, hvisit => by
    rw [visits] at hvisit
    rcases mem_cons.1 hvisit with rfl | hvisit
    · exact ⟨entries, hfound, h, rfl⟩
    · refine find_of_mem_visitsIn h (fun entry hentry => ?_) hvisit
      obtain ⟨hname, hchild⟩ := AreNamed.child? h hentry
      exact find_join hname hfound hchild

theorem find_of_mem_visitsIn {path : String} {files : List String} :
    ∀ {entries : List (String × FileTree)}, AreNamed entries →
      (∀ entry ∈ entries, tree.find (join path entry.1) = .ok entry.2) → visit ∈ visitsIn enter path files entries →
      ∃ entries, tree.find visit.path = .ok (.dir entries) ∧ AreNamed entries ∧ visit.files = fileNames entries
  | [], _, _, hvisit => by rw [visitsIn] at hvisit; cases hvisit
  | (name, found) :: entries, h, hfound, hvisit => by
    rw [visitsIn] at hvisit
    rw [forall_mem_cons] at hfound
    rcases mem_append.1 hvisit with hvisit | hvisit
    · split at hvisit
      · exact find_of_mem_visits h.2.2.1 hfound.1 hvisit
      · cases hvisit
    · exact find_of_mem_visitsIn h.2.2.2 hfound.2 hvisit

end

theorem exists_read_of_walk (h : tree.IsNamed) {directory file : String} (hvisit : visit ∈ tree.walk enter directory)
    (hfile : file ∈ visit.files) : ∃ text, tree.read (join visit.path file) = .ok text := by
  unfold walk at hvisit
  split at hvisit
  · rename_i found hfound
    obtain ⟨entries, hdir, hnamed, hfiles⟩ := find_of_mem_visits (h.find hfound) hfound hvisit
    obtain ⟨⟨name, inner⟩, hentry, hname⟩ := mem_filterMap.1 (hfiles ▸ hfile)
    cases inner with
    | dir inner => cases hname
    | file text =>
      cases hname
      obtain ⟨hname, hchild⟩ := AreNamed.child? hnamed hentry
      refine ⟨String.ofList (Text.unifyBreaks text.toList), ?_⟩
      rw [read, readExact, find_join hname hdir hchild]
      rfl
  · cases hvisit

end QmlScript.FileTree
