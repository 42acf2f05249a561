import QmlScript.Proofs.Closure

/-!
# The order of components makes no difference

Everything that writes scripts is uniform, so the only step that depends on the order of components is the
preparation. It comes to the same end in every order, since each component is prepared as if it were the
first.
-/

namespace QmlScript.Registry

/-- Registries with the same components and packages in different orders. -/
structure Reordered (r s : Registry) : Prop where
  ns : r.ns = s.ns
  buildId : r.buildId = s.buildId
  components : r.components.Reordered s.components
  packages : r.packages.Reordered s.packages
  usedComponents : r.usedComponents = s.usedComponents
  usedPackages : r.usedPackages = s.usedPackages
  imports : r.imports = s.imports
  ids : r.ids = s.ids
  ordered : NameSet.Ordered r.ids

namespace Reordered

variable {r s : Registry}

theorem symm (h : Reordered r s) : Reordered s r :=
  ⟨h.ns.symm, h.buildId.symm, h.components.symm, h.packages.symm, h.usedComponents.symm,
    h.usedPackages.symm, h.imports.symm, h.ids.symm, h.ids ▸ h.ordered⟩

theorem candidates (h : Reordered r s) (wanted name : String) :
    (r.candidates wanted name).Perm (s.candidates wanted name) := h.packages.entries.filterMap _

theorem use (h : Reordered r s) (name : String) : Reordered (r.use name) (s.use name) :=
  { h with usedComponents := congrArg (NameSet.add · name) h.usedComponents }

theorem usePackage (h : Reordered r s) (package : String) : Reordered (r.usePackage package) (s.usePackage package) :=
  { h with usedPackages := congrArg (NameSet.add · package) h.usedPackages }

theorem unmarked (h : Reordered r s) : Reordered r.unmarked s.unmarked := { h with usedComponents := rfl }

theorem signalsAlike (h : Reordered r s) : SignalsAlike r s := ⟨h.candidates, fun name => by rw [h.components.get?]⟩

end Reordered

theorem indistinct_reordered : Indistinct Reordered where
  component h := h.components.get?
  size h := h.components.size
  ids h := h.ids
  candidates h := h.candidates
  use h _ _ _ _ := h.use _
  usePackage h := h.usePackage

theorem uniform_generateQueue (bound : Nat) (queue : List String) (sections : Sections) :
    Uniform Reordered (generateQueue bound queue sections) := by
  induction bound generalizing queue sections with
  | zero => exact .pure sections
  | succ bound ih =>
    intro r s h
    have hwaiting : waiting queue sections r = waiting queue sections s := by
      rw [waiting, waiting, h.usedComponents]
    rw [run_generateQueue_succ, run_generateQueue_succ, hwaiting, h.usedComponents]
    split
    · exact .done sections h
    · cases waiting queue sections s with
      | nil => exact ih [] sections _ _ h.unmarked
      | cons name queue =>
        have hsection := Resolves.uniform indistinct_reordered (generateSection sections name)
        exact hsection.bind (fun next => ih queue next) _ _ h.unmarked

variable {r s : Registry}

theorem Reordered.roundBound (h : Reordered r s) : roundBound r = roundBound s := by
  have hnames : r.packages.values.flatten.length = s.packages.values.flatten.length :=
    (h.packages.entries.map _).flatten.length_eq
  simp only [Registry.roundBound, h.components.size, h.usedComponents, hnames]

theorem uniform_generatePrepared : Uniform Reordered generatePrepared := by
  refine .ask roundBound (fun h => h.roundBound)
    (k := fun bound => generateQueue bound [rootPackage ++ "." ++ contextName] {} >>= fun sections =>
      check (sectionOrder sections.bases) >>= fun order =>
        pure (String.join (order.map fun name => (sections.code.get? name).getD ""))) fun bound => ?_
  exact (uniform_generateQueue bound _ _).bind fun sections => (Uniform.check _).bind fun order => .pure _

theorem Reordered.requests (h : Reordered r s) (names : List String) :
    Reordered (names.foldl request r) (names.foldl request s) := by
  induction names generalizing r s with
  | nil => exact h
  | cons name names ih => exact ih ((h.use name).usePackage _)

theorem uniform_scanAll (codes : List String) : Uniform Reordered (scanAll codes) := by
  intro r s h
  rw [run_scanAll, run_scanAll]
  exact .done () (h.requests _)

theorem uniform_markContext : Uniform Reordered markContext := by
  refine (Uniform.find indistinct_reordered _ _ _ _).bind fun context => ?_
  refine (Uniform.component indistinct_reordered context).bind fun c => .modify fun {r s} h => ?_
  exact { h with components := h.buildId ▸ h.components.insert context _ }

theorem uniform_markProgram : Uniform Reordered markProgram :=
  .ask (fun r => r.imports.values) (fun h => by rw [h.imports])
    (k := fun codes => scanAll codes >>= fun _ => markContext)
    fun codes => (uniform_scanAll codes).bind fun _ => uniform_markContext

theorem prepareAll_reordered {P : Registry} (h : Reordered r s)
    (hr : run (prepareAll r.components.keys) r = (.ok (), P)) :
    ∃ Q, run (prepareAll s.components.keys) s = (.ok (), Q) ∧ Reordered P Q := by
  have hnodup := h.components.nodup
  have hnodup' := h.components.symm.nodup
  obtain ⟨hall, hP⟩ := run_prepareAll_ok hnodup hr
  have hall' : ∀ name ∈ s.components.keys, Preparable s name := by
    intro name hname
    obtain ⟨c, hc, hnone⟩ := hall name (h.components.keys.mem_iff.mpr hname)
    exact ⟨c, h.components.get? name ▸ hc, (prepareComponent_alike h.signalsAlike c).2.mp hnone⟩
  obtain ⟨Q, hs⟩ := run_prepareAll_of_preparable hnodup' hall'
  obtain ⟨_, hQ⟩ := run_prepareAll_ok hnodup' hs
  have hcomponents : P.components.Reordered Q.components := by
    refine ⟨hP.keys ▸ hnodup, hP.keys ▸ hQ.keys ▸ h.components.keys, fun name => ?_⟩
    rw [hP.get?, hQ.get?, h.components.get?]
    simp only [h.components.keys.mem_iff, (prepareComponent_alike h.signalsAlike _).1]
  have hids : P.ids = Q.ids := by
    refine (hP.ordered h.ordered).ext (hQ.ordered h.symm.ordered) fun id => ?_
    rw [hP.ids, hQ.ids, h.ids]
    simp only [h.components.keys.mem_iff, h.components.get?]
  refine ⟨Q, hs, ?_⟩
  have hP' := hP.rest
  have hQ' := hQ.rest
  constructor
  · rw [hP', hQ']; exact h.ns
  · rw [hP', hQ']; exact h.buildId
  · exact hcomponents
  · rw [hP', hQ']; exact h.packages
  · rw [hP', hQ']; exact h.usedComponents
  · rw [hP', hQ']; exact h.usedPackages
  · rw [hP', hQ']; exact h.imports
  · exact hids
  · exact hP.ordered h.ordered

theorem prepareProgram_reordered {P : Registry} (h : Reordered r s) (hr : run prepareProgram r = (.ok (), P)) :
    ∃ Q, run prepareProgram s = (.ok (), Q) ∧ Reordered P Q := by
  obtain ⟨_, r₁, hmark, hprep⟩ := run_bind_ok hr
  have halike := uniform_markProgram r s h
  rw [hmark] at halike
  obtain ⟨s₁, hs, h₁⟩ := halike.ok_left
  obtain ⟨Q, hQ, hPQ⟩ := prepareAll_reordered h₁ hprep
  exact ⟨Q, (run_bind_of_ok hs).trans hQ, hPQ⟩

theorem uniform_prologue : Uniform Reordered prologue := by
  unfold prologue
  refine Uniform.bind (.modify fun {r s} h => ?_) fun _ => ?_
  · exact { h with usedPackages := by rw [h.imports, h.usedPackages] }
  · intro r s h
    rw [run_bind, run_bind, run_get, run_get]
    dsimp only
    rw [h.usedPackages, h.imports]
    exact ((Uniform.check _).bind fun lines => .pure _) r s h

theorem generate_eq : generate = prepareProgram >>= fun _ => generatePrepared >>= finishProgram := by
  simp only [generate, generateComponents_eq, bind_assoc]

theorem uniform_finishProgram (sections : String) : Uniform Reordered (finishProgram sections) := by
  refine uniform_prologue.bind fun packages => ?_
  refine .ask (fun r => (r.ns, importTexts r)) (fun {r s} (h : Reordered r s) => by
      rw [h.ns, importTexts, importTexts, h.imports])
    (k := fun known => check (Script.replaceArgs (programText known.1 packages sections known.2)))
    fun known => .check _

theorem generate_of_reordered (h : Reordered r s) {text : String}
    (ht : (run generate r).1 = .ok text) : (run generate s).1 = .ok text := by
  have hrun := run_eq_of_ok ht
  rw [generate_eq] at hrun ⊢
  obtain ⟨_, P, hprep, hrest⟩ := run_bind_ok hrun
  obtain ⟨Q, hQ, hPQ⟩ := prepareProgram_reordered h hprep
  have halike := uniform_generatePrepared.bind uniform_finishProgram P Q hPQ
  rw [hrest] at halike
  obtain ⟨t, ht, _⟩ := halike.ok_left
  rw [run_bind_of_ok hQ, ht]

end QmlScript.Registry
