import QmlScript.Proofs.Emission
import QmlScript.Registry.Bundle

/-!
# What work resolves

Nothing but resolving a name touches the marks. So the components that a work resolves are those that are
marked when it starts without marks, and work that starts with marks adds the same ones to them.
-/

namespace QmlScript.Registry

open List

variable {α : Type} {r s : Registry}

def bare (r : Registry) : Registry := { r with usedComponents := [], usedPackages := [] }

def unmarked (r : Registry) : Registry := { r with usedComponents := [] }

def declaredNames (r : Registry) : List String :=
  r.packages.entries.flatMap fun (package, names) => names.map fun name => package ++ "." ++ name

theorem length_declaredNames (r : Registry) : r.declaredNames.length = r.packages.values.flatten.length := by
  simp only [declaredNames, Table.values, length_flatMap, length_flatten, length_map, map_map]
  rfl

theorem mem_declaredNames {wanted name package : String}
    (h : package ∈ r.candidates wanted name) : package ++ "." ++ name ∈ r.declaredNames := by
  obtain ⟨⟨p, names⟩, hentry, hp⟩ := mem_filterMap.mp h
  dsimp only at hp
  split at hp
  · rename_i hcond
    obtain rfl := Option.some.inj hp
    have hname : name ∈ names := contains_iff_mem.mp (Bool.and_eq_true_iff.mp hcond).1
    exact mem_flatMap.mpr ⟨(p, names), hentry, mem_map.mpr ⟨name, hname, rfl⟩⟩
  · simp at hp

/-- Finding succeeds for the root of all types, without a mark, and for what is declared, with one. -/
theorem run_find_ok {current reference name : String} {r' : Registry}
    (h : run (find current reference true {}) r = (.ok name, r')) :
    (name = root ∧ r' = r) ∨ (name ∈ r.declaredNames ∧ r' = r.use name) := by
  rw [run_find] at h
  split at h
  · cases h
    exact .inl ⟨rfl, rfl⟩
  · split at h
    · cases h
    · rename_i package hpackage
      cases h
      exact .inr ⟨mem_declaredNames (choosePackage_mem hpackage), rfl⟩

instance (sections : Sections) (name : String) : Resolves (generateSection sections name) := by
  unfold generateSection
  infer_instance

/-- Registries with the knowledge of `P` whose marks differ by `before`; the second marks only what is declared. -/
structure Marking (P : Registry) (before : NameSet) (r s : Registry) : Prop where
  left : r.bare = P.bare
  right : s.bare = P.bare
  mem : ∀ name, name ∈ r.usedComponents ↔ name ∈ before ∨ name ∈ s.usedComponents
  left_ordered : NameSet.Ordered r.usedComponents
  right_ordered : NameSet.Ordered s.usedComponents
  declared : ∀ name ∈ s.usedComponents, name ∈ P.declaredNames

theorem components_eq_of_bare (h : r.bare = s.bare) : r.components = s.components :=
  show r.bare.components = s.bare.components from congrArg Registry.components h

theorem packages_eq_of_bare (h : r.bare = s.bare) : r.packages = s.packages :=
  show r.bare.packages = s.bare.packages from congrArg Registry.packages h

theorem ids_eq_of_bare (h : r.bare = s.bare) : r.ids = s.ids :=
  show r.bare.ids = s.bare.ids from congrArg Registry.ids h

theorem indistinct_marking (P : Registry) (before : NameSet) : Indistinct (Marking P before) where
  component {r s} h name := by rw [components_eq_of_bare (h.left.trans h.right.symm)]
  size {r s} h := by rw [components_eq_of_bare (h.left.trans h.right.symm)]
  ids {r s} h := ids_eq_of_bare (h.left.trans h.right.symm)
  candidates {r s} h wanted name := by
    unfold candidates
    rw [packages_eq_of_bare (h.left.trans h.right.symm)]
  use {r s} h {wanted name package} hc :=
    { left := h.left
      right := h.right
      mem := fun other => by
        simp only [use, NameSet.mem_add, h.mem other]
        exact or_left_comm
      left_ordered := h.left_ordered.add _
      right_ordered := h.right_ordered.add _
      declared := fun other ho => by
        rcases (NameSet.mem_add _ _ _).mp ho with rfl | ho
        · have := mem_declaredNames hc
          rwa [declaredNames, packages_eq_of_bare h.left] at this
        · exact h.declared other ho }
  usePackage {r s} h package := ⟨h.left, h.right, h.mem, h.left_ordered, h.right_ordered, h.declared⟩

theorem Resolves.marking (w : Work α) [Resolves w] {P : Registry} (hr : r.bare = P.bare)
    (ho : NameSet.Ordered r.usedComponents) :
    Alike (Marking P r.usedComponents) (run w r) (run w P.unmarked) :=
  uniform (indistinct_marking P r.usedComponents) w r P.unmarked
    ⟨hr, rfl, fun name => by simp [unmarked], ho, List.Pairwise.nil, by simp [unmarked]⟩

/-- Work that succeeds over marks gives the same value without them. -/
theorem Resolves.run_ok {w : Work α} [Resolves w] {P r' : Registry} {a : α}
    (hr : r.bare = P.bare) (ho : NameSet.Ordered r.usedComponents) (h : run w r = (.ok a, r')) :
    ∃ s, run w P.unmarked = (.ok a, s) ∧ Marking P r.usedComponents r' s := by
  have hm := marking w hr ho
  rw [h] at hm
  exact hm.ok_left

/-! ## Answers: those of work in several steps are made from the answers of its steps -/

variable {α β : Type} {r : Registry}

def answer (r : Registry) (w : Work α) : Option α := (run w r).1.toOption

theorem answer_eq_some {w : Work α} {a : α} : answer r w = some a ↔ (run w r).1 = .ok a := by
  unfold answer
  cases (run w r).1 <;> simp [Except.toOption]

theorem indistinct_bare (P : Registry) : Indistinct fun r s => r.bare = P.bare ∧ s.bare = P.bare where
  component h _ := by rw [components_eq_of_bare (h.1.trans h.2.symm)]
  size h := by rw [components_eq_of_bare (h.1.trans h.2.symm)]
  ids h := ids_eq_of_bare (h.1.trans h.2.symm)
  candidates h _ _ := by
    unfold candidates
    rw [packages_eq_of_bare (h.1.trans h.2.symm)]
  use h _ _ _ _ := h
  usePackage h _ := h

/-- Other marks do not change the answer, and only marks are left. -/
theorem Resolves.answer_of_bare (w : Work α) [Resolves w] (h : s.bare = r.bare) :
    answer s w = answer r w ∧ (run w s).2.bare = r.bare := by
  have hend := uniform (indistinct_bare r) w s r ⟨h, rfl⟩
  unfold answer
  rcases hs : run w s with ⟨x, s'⟩
  rcases hr : run w r with ⟨y, r'⟩
  rw [hs, hr] at hend
  cases hend with
  | done _ hbare | failed _ _ hbare => exact ⟨rfl, hbare.1⟩

@[simp] theorem answer_pure (a : α) : answer r (pure a) = some a := rfl

@[simp] theorem answer_throw (e : Error) : answer r (throw e : Work α) = none := rfl

@[simp] theorem answer_check (result : Except Error α) : answer r (check result) = result.toOption := by
  rw [answer, run_check]

theorem exists_of_answer_bind {w : Work α} {k : α → Work β} {b : β} (h : answer r (w >>= k) = some b) :
    ∃ a s, answer r w = some a ∧ answer s (k a) = some b := by
  unfold answer at h ⊢
  rw [run_bind] at h
  rcases hrun : run w r with ⟨e | a, s⟩
  · simp [hrun, Except.toOption] at h
  · rw [hrun] at h
    exact ⟨a, s, rfl, h⟩

theorem ok_of_answer_check {result : Except Error α} {a : α} (h : answer r (check result) = some a) :
    result = .ok a := by
  rw [answer_check] at h
  cases result with
  | error e => simp [Except.toOption] at h
  | ok a' => exact congrArg _ (Option.some.inj h)

theorem answer_bind (w : Work α) (k : α → Work β) [Resolves w] [∀ a, Resolves (k a)] :
    answer r (w >>= k) = (answer r w).bind fun a => answer r (k a) := by
  have hbare := (Resolves.answer_of_bare w (r := r) rfl).2
  unfold answer
  rw [run_bind]
  rcases hrun : run w r with ⟨e | a, s⟩
  · rfl
  · rw [hrun] at hbare
    exact (Resolves.answer_of_bare (k a) hbare).1

theorem answer_mapM (f : α → Work β) [∀ a, Resolves (f a)] (as : List α) :
    answer r (as.mapM f) = as.mapM fun a => answer r (f a) := by
  induction as with
  | nil => rfl
  | cons a as ih =>
    rw [mapM_cons, mapM_cons, answer_bind]
    refine congrArg _ (funext fun b => ?_)
    rw [answer_bind, ih]
    rfl

theorem answer_foldlM (f : β → α → Work β) [∀ b a, Resolves (f b a)] (as : List α) (b : β) :
    answer r (as.foldlM f b) = as.foldlM (fun b a => answer r (f b a)) b := by
  induction as generalizing b with
  | nil => rfl
  | cons a as ih =>
    rw [foldlM_cons, foldlM_cons, answer_bind]
    exact congrArg _ (funext fun b' => ih b')

end QmlScript.Registry
