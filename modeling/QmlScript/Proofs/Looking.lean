import QmlScript.Proofs.Caching
import QmlScript.Proofs.Results

/-!
# Jobs that only look at files

The answer of a job that only looks at files is known from the files alone, and the files stay as they are. So
the answers of such jobs can be taken one after the other without the workspace.
-/

namespace QmlScript.Job

variable {α β : Type} {job : Job α} {f : α → Job β} {tree : FileTree}

/-- The answer of a job that is done with nothing but some files. -/
def answer (tree : FileTree) (job : Job α) : Except BuildError α := (job.runIn { tree }).1

class Looks (job : Job α) : Prop where
  runIn_eq : ∀ w, (job.runIn w).1 = answer w.tree job ∧ (job.runIn w).2.tree = w.tree

instance (a : α) : Looks (pure a : Job α) := ⟨fun _ => ⟨rfl, rfl⟩⟩

instance (e : BuildError) : Looks (throw e : Job α) := ⟨fun _ => ⟨rfl, rfl⟩⟩

section

variable [hjob : Looks job] [hf : ∀ a, Looks (f a)]

theorem runIn_bind_of_looks (w : Workspace) :
    (runIn w (job >>= f)).1 = (answer w.tree job >>= fun a => answer w.tree (f a)) ∧
      (runIn w (job >>= f)).2.tree = w.tree := by
  obtain ⟨hanswer, htree⟩ := hjob.runIn_eq w
  rw [runIn_bind, ← hanswer]
  generalize hrun : runIn w job = run at htree
  obtain ⟨a | a, w'⟩ := run
  · exact ⟨rfl, htree⟩
  · obtain ⟨hnext, hkept⟩ := (hf a).runIn_eq w'
    dsimp only at htree
    rw [htree] at hnext hkept
    exact ⟨hnext, hkept⟩

theorem answer_bind : answer tree (job >>= f) = answer tree job >>= fun a => answer tree (f a) :=
  (runIn_bind_of_looks { tree }).1

instance Looks.bind : Looks (job >>= f) where
  runIn_eq w := by
    rw [answer_bind]
    exact runIn_bind_of_looks w

end

instance {ε : Type} (wrap : ε → BuildError) (result : Except ε α) : Looks (ofExcept wrap result) := by
  cases result with
  | error e => exact inferInstanceAs (Looks (throw (wrap e)))
  | ok a => exact inferInstanceAs (Looks (pure a))

instance (value : Except SettingError α) : Looks (setting value) := inferInstanceAs (Looks (ofExcept _ value))

instance (g : FileTree → Except FileError α) : Looks (look g) where
  runIn_eq w := by
    rw [answer, runIn_look, runIn_look]
    exact ⟨rfl, rfl⟩

instance (line : String) : Looks (say line) := ⟨fun _ => ⟨rfl, rfl⟩⟩

theorem answer_get_bind (f : Workspace → Job α) : answer tree (get >>= f) = answer tree (f { tree }) := rfl

theorem looks_get_bind {f : Workspace → Job α} [h : ∀ w, Looks (f w)]
    (htree : ∀ w w', w.tree = w'.tree → f w = f w') : Looks (get >>= f) where
  runIn_eq w := by
    rw [answer_get_bind, htree { tree := w.tree } w rfl]
    exact (h w).runIn_eq w

theorem answer_tree (g : FileTree → Job β) : answer tree (get >>= fun w => g w.tree) = answer tree (g tree) := by
  rw [answer, runIn_bind, runIn_get]
  rfl

instance [h : Looks job] : Looks (attempt job) where
  runIn_eq w := by
    have hrun : ∀ w, runIn w (attempt job) = (.ok (runIn w job).1, (runIn w job).2) := fun _ => rfl
    rw [answer, hrun, hrun, (h.runIn_eq w).1]
    exact ⟨rfl, (h.runIn_eq w).2⟩

instance {γ : Type} {g : β → γ → Job β} [∀ b c, Looks (g b c)] (b : β) (cs : List γ) : Looks (cs.foldlM g b) := by
  induction cs generalizing b with
  | nil => exact inferInstanceAs (Looks (pure b))
  | cons c cs ih => exact inferInstanceAs (Looks (g b c >>= fun b => cs.foldlM g b))

def gives (tree : FileTree) (job : Job α) : Option α := (answer tree job).toOption

theorem gives_bind [Looks job] [∀ a, Looks (f a)] :
    gives tree (job >>= f) = (gives tree job).bind fun a => gives tree (f a) := by
  rw [gives, gives, answer_bind]
  cases answer tree job <;> rfl

theorem gives_bind_pure [Looks job] (g : α → β) :
    gives tree (job >>= fun a => pure (g a)) = (gives tree job).map g := by
  rw [gives_bind]
  cases gives tree job <;> rfl

theorem gives_ofExcept_bind {ε : Type} (wrap : ε → BuildError) (result : Except ε α) (f : α → Job β) :
    gives tree (ofExcept wrap result >>= f) = result.toOption.bind fun a => gives tree (f a) := by
  cases result <;> rfl

theorem answer_ofExcept_bind {ε : Type} {wrap : ε → BuildError} {result : Except ε α} {a : α}
    (h : result = .ok a) (f : α → Job β) : answer tree (ofExcept wrap result >>= f) = answer tree (f a) := by
  rw [h]
  rfl

theorem answer_setting_bind {value : Except SettingError α} {a : α} (h : value = .ok a) (f : α → Job β) :
    answer tree (setting value >>= f) = answer tree (f a) := answer_ofExcept_bind h f

theorem answer_readManifest_bind {path : String} {manifest : Manifest}
    (h : Compile.readManifest tree path = .ok manifest) (f : Manifest → Job α) :
    answer tree (Job.readManifest path >>= f) = answer tree (f manifest) := by
  have hread : runIn { tree } (Job.readManifest path) = (.ok manifest, { tree }) := by
    rw [Job.readManifest, runIn_bind, runIn_get]
    dsimp only
    rw [h]
    rfl
  rw [answer, runIn_bind, hread]
  rfl

instance (path : String) : Looks (Job.readManifest path) :=
  looks_get_bind fun _ _ h => by rw [h]

end QmlScript.Job

namespace QmlScript.Compile

theorem exists_of_readManifest {tree : FileTree} {path : String} {manifest : Manifest}
    (h : readManifest tree path = .ok manifest) :
    ∃ text, tree.read path = .ok text ∧ Manifest.read text = .ok manifest := by
  obtain ⟨text, htext, h⟩ := of_bind_eq_ok h
  refine ⟨text, mapError_eq_ok_iff.1 htext, ?_⟩
  split at h
  · rename_i found hfound
    cases h
    exact hfound
  all_goals cases h

end QmlScript.Compile
