import QmlScript.Proofs.Invariants
import QmlScript.Proofs.Reading
import QmlScript.Proofs.Registration

/-!
# References with a package

A reference `ui.Button` may mean a component of `ui`, but also of each package whose name ends in `.ui`. The
package that is spelled out has no precedence: first comes the one that the reference stands in, then that of
the root. So a component of the very package that is named may be missed.
-/

namespace QmlScript.Registry

open List

/-- Packages have different names, and declared names have no dots. -/
structure Distinct (r : Registry) : Prop where
  nodup : r.packages.keys.Nodup
  plain : ∀ package, ∀ name ∈ (r.packages.get? package).getD [], '.' ∉ name.toList

namespace Distinct

variable {r s : Registry}

theorem of_eq (h : Distinct r) (hpackages : s.packages = r.packages) : Distinct s :=
  ⟨hpackages ▸ h.nodup, hpackages ▸ h.plain⟩

theorem fresh (ns buildId : String) : Distinct (Registry.fresh ns buildId) :=
  ⟨nodup_nil, by simp [Registry.fresh, Table.get?, Table.lookup]⟩

theorem steady : Steady Distinct where
  use h _ := h.of_eq rfl
  usePackage h _ := h.of_eq rfl
  unmarked h := h.of_eq rfl
  replace h _ _ _ _ _ _ := h.of_eq rfl

theorem announce (h : Distinct r) (a : Addition) (key : String) : Distinct (a.announce key r) := by
  refine ⟨Table.nodup_keys_insert h.nodup _ _, fun package name hname => ?_⟩
  rw [Addition.announce, Table.get?_insert] at hname
  split at hname
  · rw [Option.getD_some, NameSet.mem_add] at hname
    rcases hname with rfl | hname
    · exact a.dot_not_mem_localName
    · exact h.plain a.package name hname
  · exact h.plain package name hname

theorem call (h : Distinct r) (call : Call) : Distinct (run call.work r).2 := by
  generalize hs : (run call.work r).2 = s
  cases Call.leaves hs with
  | same => exact h
  | announced => exact h.announce _ _
  | @registered a key => exact (h.announce a key).of_eq rfl
  | imported => exact h.of_eq rfl
  | scanned => exact steady.requests _ h

end Distinct

theorem Reachable.distinct {r : Registry} (h : Reachable r) : Distinct r :=
  h.invariant Distinct.steady .fresh Distinct.call fun h _ => h.of_eq

def HasName (r : Registry) (package name : String) : Prop := name ∈ (r.packages.get? package).getD []

/-- The package has a component of the name, and is `wanted` or ends in it. -/
def Answers (r : Registry) (wanted name package : String) : Prop :=
  r.HasName package name ∧ (package = wanted ∨ ∃ front, package = front ++ "." ++ wanted)

variable {r : Registry} {wanted name package current : String} {packages : List String} {other : String}

theorem endsWithText_iff {tail s : String} : endsWithText tail s = true ↔ ∃ front, s = front ++ tail := by
  rw [endsWithText, Text.endsWith, Grammar.startsWith_iff]
  constructor
  · rintro ⟨front, h⟩
    refine ⟨String.ofList front.reverse, String.toList_inj.mp ?_⟩
    rw [← reverse_inj, h]
    simp
  · rintro ⟨front, rfl⟩
    exact ⟨front.toList.reverse, by simp⟩

theorem Distinct.mem_candidates_iff (h : Distinct r) (hwanted : wanted ≠ "") :
    package ∈ r.candidates wanted name ↔ r.Answers wanted name package := by
  rw [mem_candidates h.nodup, endsWithText_iff]
  simp only [hwanted, false_or, Answers, HasName, String.append_assoc]

theorem nodup_candidates (h : r.packages.keys.Nodup) : (r.candidates wanted name).Nodup := by
  have hsub : (r.candidates wanted name).Sublist r.packages.keys := by
    unfold candidates Table.keys
    induction r.packages.entries with
    | nil => exact .slnil
    | cons entry entries ih =>
      rw [filterMap_cons]
      dsimp only
      split
      · rename_i hnone
        split at hnone
        · cases hnone
        · exact ih.cons _
      · rename_i hsome
        split at hsome
        · obtain rfl := Option.some.inj hsome
          exact ih.cons_cons _
        · cases hsome
  exact h.sublist hsub

theorem Answers.eq_of_root (h : r.Answers wanted name rootPackage) : wanted = rootPackage := by
  rcases h.2 with heq | ⟨front, heq⟩
  · exact heq.symm
  · have hdot : '.' ∈ rootPackage.toList := by
      rw [heq]
      simp
    exact absurd hdot (by decide)

theorem run_find_qualified (h : Distinct r) (hdeclared : r.HasName wanted name) (register : Bool) :
    (run (find current (wanted ++ "." ++ name) register {}) r).1 =
      (choosePackage current (wanted ++ "." ++ name) name (r.candidates wanted name)).map
        fun package => package ++ "." ++ name := by
  rw [run_find, if_neg (append_name_ne_rootName wanted name), meant,
    Package.splitName_append wanted (h.plain wanted name hdeclared)]
  cases choosePackage current (wanted ++ "." ++ name) name (r.candidates wanted name) <;> rfl

theorem choosePackage_of_unique {reference : String} (hn : packages.Nodup)
    (hmem : package ∈ packages) (hunique : ∀ other ∈ packages, other = package) :
    choosePackage current reference name packages = .ok package := by
  match packages, hn, hmem, hunique with
  | [other], _, _, hunique => rw [choosePackage, hunique other (mem_singleton_self other)]
  | first :: second :: rest, hn, _, hunique =>
    have hfirst : first = package := hunique first (by simp)
    have hsecond : second = package := hunique second (by simp)
    exact absurd hn (by simp [hfirst, hsecond])

/-- Several candidates are told apart by two rules, or not at all. -/
theorem choosePackage_of_several {reference : String}
    (hmem : package ∈ packages) (hother : other ∈ packages) (hne : other ≠ package) :
    choosePackage current reference name packages =
      if current ∈ packages then .ok current
      else if rootPackage ∈ packages then .ok rootPackage
      else .error (.ambiguous name packages) := by
  match packages, hmem, hother with
  | [single], hmem, hother =>
    exact absurd ((mem_singleton.mp hother).trans (mem_singleton.mp hmem).symm) hne
  | first :: second :: rest, _, _ => simp only [choosePackage, contains_iff_mem]

theorem append_name_inj : package ++ "." ++ name = other ++ "." ++ name ↔ package = other := by
  rw [← String.toList_inj]
  simp [String.toList_inj]

/-- What a reference with a package means if longer ones have the name. -/
theorem run_find_of_several (hr : Reachable r) (hpackage : package ≠ "")
    (hdeclared : r.HasName package name) (hother : r.Answers package name other) (hne : other ≠ package)
    (current : String) (register : Bool) :
    (r.Answers package name current →
      (run (find current (package ++ "." ++ name) register {}) r).1 = .ok (current ++ "." ++ name)) ∧
    (¬ r.Answers package name current → package = rootPackage →
      (run (find current (package ++ "." ++ name) register {}) r).1 = .ok (package ++ "." ++ name)) ∧
    (¬ r.Answers package name current → package ≠ rootPackage →
      (run (find current (package ++ "." ++ name) register {}) r).1 =
        .error (.ambiguous name (r.candidates package name))) := by
  have hmem : ∀ p, p ∈ r.candidates package name ↔ r.Answers package name p := fun p =>
    hr.distinct.mem_candidates_iff hpackage
  have hself : r.Answers package name package := ⟨hdeclared, .inl rfl⟩
  rw [run_find_qualified hr.distinct hdeclared,
    choosePackage_of_several ((hmem package).mpr hself) ((hmem other).mpr hother) hne]
  refine ⟨fun hcurrent => ?_, fun hcurrent hroot => ?_, fun hcurrent hroot => ?_⟩
  · rw [if_pos ((hmem current).mpr hcurrent)]
    rfl
  · rw [if_neg fun hin => hcurrent ((hmem current).mp hin), if_pos ((hmem _).mpr (hroot ▸ hself)), hroot]
    rfl
  · have hnot : rootPackage ∉ r.candidates package name := fun hin =>
      hroot (Answers.eq_of_root ((hmem _).mp hin))
    rw [if_neg fun hin => hcurrent ((hmem current).mp hin), if_neg hnot]
    rfl

/-- A reference that spells out the package of a component means this component exactly if no longer package has
the name too, or it stands in the package itself, or the package is that of the root and the reference does not
stand in a longer one. Otherwise it means the component of the longer package, or is refused as ambiguous. -/
theorem find_qualified_iff (hr : Reachable r) (hpackage : package ≠ "") (hdeclared : r.HasName package name)
    (current : String) (register : Bool) :
    ((run (find current (package ++ "." ++ name) register {}) r).1 = .ok (package ++ "." ++ name) ↔
      (∀ other, r.Answers package name other → other = package) ∨ current = package ∨
        (package = rootPackage ∧ ¬ r.Answers package name current)) ∧
    (r.Answers package name current →
      (run (find current (package ++ "." ++ name) register {}) r).1 = .ok (current ++ "." ++ name)) ∧
    (¬ r.Answers package name current → package ≠ rootPackage →
      (∃ other, r.Answers package name other ∧ other ≠ package) →
      ∃ packages : List String, packages.Nodup ∧
        (∀ other, other ∈ packages ↔ r.Answers package name other) ∧
        (run (find current (package ++ "." ++ name) register {}) r).1 =
          .error (.ambiguous name packages)) := by
  have hmem : ∀ other, other ∈ r.candidates package name ↔ r.Answers package name other := fun other =>
    hr.distinct.mem_candidates_iff hpackage
  have hn : (r.candidates package name).Nodup := nodup_candidates hr.distinct.nodup
  have hself : r.Answers package name package := ⟨hdeclared, .inl rfl⟩
  by_cases hunique : ∀ other, r.Answers package name other → other = package
  · have hfound : (run (find current (package ++ "." ++ name) register {}) r).1 =
        .ok (package ++ "." ++ name) := by
      rw [run_find_qualified hr.distinct hdeclared, choosePackage_of_unique hn ((hmem package).mpr hself)
        fun other hother => hunique other ((hmem other).mp hother)]
      rfl
    refine ⟨iff_of_true hfound (.inl hunique), fun hcurrent => ?_, fun _ _ ⟨other, hother, hne⟩ => ?_⟩
    · rw [hunique current hcurrent]
      exact hunique current hcurrent ▸ hfound
    · exact absurd (hunique other hother) hne
  · obtain ⟨other, hother, hne⟩ : ∃ other, r.Answers package name other ∧ other ≠ package := by
      simpa using hunique
    obtain ⟨hcur, hroot, hambiguous⟩ := run_find_of_several hr hpackage hdeclared hother hne current register
    refine ⟨?_, hcur, fun hout hnot _ => ⟨_, hn, hmem, hambiguous hout hnot⟩⟩
    by_cases hcurrent : r.Answers package name current
    · have hiff : current ++ "." ++ name = package ++ "." ++ name ↔ current = package := append_name_inj
      simp only [hcur hcurrent, Except.ok.injEq, hiff, hunique, hcurrent, not_true, and_false, or_false,
        false_or]
    · have hout : current ≠ package := by
        rintro rfl
        exact hcurrent hself
      by_cases hpackageRoot : package = rootPackage
      · exact iff_of_true (hroot hcurrent hpackageRoot) (.inr (.inr ⟨hpackageRoot, hcurrent⟩))
      · rw [hambiguous hcurrent hpackageRoot]
        refine iff_of_false (fun heq => by cases heq) ?_
        rintro (hall | hsame | ⟨hisRoot, -⟩)
        · exact hunique hall
        · exact hout hsame
        · exact hpackageRoot hisRoot

/-- The type `X` of a package and of a longer one that ends in it. -/
def inTwoPackages (package : String) : Registry :=
  after [.add ⟨package ++ ".X", .component none "CoreObject" [], true⟩,
    .add ⟨"b." ++ package ++ ".X", .component none "CoreObject" [], true⟩] (fresh "qml" "1")

theorem reachable_inTwoPackages (package : String) : Reachable (inTwoPackages package) :=
  (Reachable.fresh "qml" "1").after _

set_option maxRecDepth 100000

/-- The root package is found from a third package, although a longer one has the name too. -/
theorem find_qualified_root :
    (inTwoPackages "core").Answers "core" "X" "b.core" ∧
      (run (find "c" "core.X" true {}) (inTwoPackages "core")).1 = .ok "core.X" := by
  have hdeclared : (inTwoPackages "core").HasName "core" "X" := by
    unfold HasName
    decide +kernel
  refine ⟨⟨by unfold HasName; decide +kernel, .inr ⟨"b", by decide⟩⟩, ?_⟩
  refine (find_qualified_iff (reachable_inTwoPackages "core") (by decide) hdeclared "c" true).1.mpr
    (.inr (.inr ⟨rfl, fun h => ?_⟩))
  exact absurd h.1 (by unfold HasName; decide +kernel)

/-- The type `a.X` is registered, but a reference to it is ambiguous in a third package, and in the package
`b.a` it means another type. -/
theorem qualified_reference_missed :
    (inTwoPackages "a").HasName "a" "X" ∧
      (run (find "c" "a.X" true {}) (inTwoPackages "a")).1 = .error (.ambiguous "X" ["a", "b.a"]) ∧
      (run (find "b.a" "a.X" true {}) (inTwoPackages "a")).1 = .ok "b.a.X" := by
  refine ⟨?_, rfl, rfl⟩
  unfold HasName
  decide +kernel

end QmlScript.Registry
