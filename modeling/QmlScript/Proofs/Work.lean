import Mathlib.Data.List.Perm.Basic
import QmlScript.Proofs.Table
import QmlScript.Registry

/-!
# Work on two registries at once

Most work on a registry only looks components up and marks what it finds as used. Such work cannot tell
registries apart that answer alike, and leaves them alike: it is `Uniform`, for a relation of registries that
may forget the order of tables or the marks, or state an invariant.
-/

namespace QmlScript

/-- Parts are smaller than the component, which carries inductions at any depth. -/
theorem Component.sizeOf_parts_lt (c : Component) : sizeOf c.parts < sizeOf c := by
  cases c
  simp only [Component.mk.sizeOf_spec]
  omega

theorem Component.inductParts {motive : Component → Prop} (h : ∀ c, (∀ part ∈ c.parts, motive part) → motive c)
    (c : Component) : motive c := by
  induction hn : sizeOf c using Nat.strong_induction_on generalizing c with
  | _ n ih =>
    exact h c fun part hpart => ih _ (hn ▸ Nat.lt_trans (List.sizeOf_lt_of_mem hpart) c.sizeOf_parts_lt) part rfl

end QmlScript

namespace QmlScript.Registry

open List

variable {α β γ : Type}
variable {r : Registry} {R : Registry → Registry → Prop}
variable {w : Work α} {f : α → Work β}

theorem run_pure (a : α) (r : Registry) : run (pure a) r = (.ok a, r) := rfl

theorem run_throw (e : Error) (r : Registry) : run (throw e : Work α) r = (.error e, r) := rfl

theorem run_get (r : Registry) : run (get : Work Registry) r = (.ok r, r) := rfl

theorem run_set (r s : Registry) : run (set s : Work Unit) r = (.ok (), s) := rfl

theorem run_modify (f : Registry → Registry) (r : Registry) : run (modify f : Work Unit) r = (.ok (), f r) := rfl

theorem run_check (result : Except Error α) (r : Registry) : run (check result) r = (result, r) := by
  cases result <;> rfl

theorem run_bind (w : Work α) (f : α → Work β) (r : Registry) :
    run (w >>= f) r =
      match run w r with
      | (.ok a, r) => run (f a) r
      | (.error e, r) => (.error e, r) := by
  show (match w r with | (a, s) => ExceptT.bindCont f a s) = _
  simp only [run, StateT.run, ExceptT.run]
  rcases w r with ⟨a | a, s⟩ <;> rfl

theorem run_eq_of_ok {a : α} (h : (run w r).1 = .ok a) : run w r = (.ok a, (run w r).2) := Prod.ext h rfl

theorem run_bind_ok {r' : Registry} {b : β} (h : run (w >>= f) r = (.ok b, r')) :
    ∃ a s, run w r = (.ok a, s) ∧ run (f a) s = (.ok b, r') := by
  rw [run_bind] at h
  rcases hw : run w r with ⟨e | a, s⟩
  · rw [hw] at h; simp at h
  · rw [hw] at h; exact ⟨a, s, rfl, h⟩

theorem run_bind_of_ok {s : Registry} {a : α} (h : run w r = (.ok a, s)) : run (w >>= f) r = run (f a) s := by
  rw [run_bind, h]

theorem run_try (w : Work α) (r : Registry) :
    run (do
      try return some (← w)
      catch _ => return none : Work (Option α)) r =
      match run w r with
      | (.ok a, r) => (.ok (some a), r)
      | (.error _, r) => (.ok none, r) := by
  simp only [run, StateT.run, ExceptT.run]
  rcases hw : w r with ⟨e | a, r'⟩ <;>
    simp [bind, ExceptT.bind, ExceptT.mk, StateT.bind, tryCatch, tryCatchThe, MonadExcept.tryCatch,
      MonadExceptOf.tryCatch, ExceptT.tryCatch, ExceptT.bindCont, hw, EarlyReturnT.return, pure,
      ExceptT.pure, throw, throwThe, MonadExceptOf.throw] <;>
    rfl

/-- Two ends of work: both succeed with one value or both fail, with related registries. -/
inductive Alike (R : Registry → Registry → Prop) :
    Except Error α × Registry → Except Error α × Registry → Prop
  | done (a : α) {r s : Registry} (h : R r s) : Alike R (.ok a, r) (.ok a, s)
  | failed (e f : Error) {r s : Registry} (h : R r s) : Alike R (.error e, r) (.error f, s)

def Uniform (R : Registry → Registry → Prop) (w : Work α) : Prop :=
  ∀ r s : Registry, R r s → Alike R (run w r) (run w s)

/-- What is true of one end of uniform work is true of the other. -/
theorem Alike.ok_left {a : α} {y : Except Error α × Registry} (h : Alike R (.ok a, r) y) :
    ∃ s, y = (.ok a, s) ∧ R r s := by
  cases h with
  | done _ h => exact ⟨_, rfl, h⟩

namespace Uniform

variable {R : Registry → Registry → Prop}

theorem pure (a : α) : Uniform R (Pure.pure a : Work α) := fun _ _ h => .done a h

theorem throw (e : Error) : Uniform R (MonadExcept.throw e : Work α) := fun _ _ h => .failed e e h

theorem bind (hw : Uniform R w) (hf : ∀ a, Uniform R (f a)) : Uniform R (w >>= f) := by
  intro r s h
  rw [run_bind, run_bind]
  rcases hr : run w r with ⟨x, r'⟩
  rcases hs : run w s with ⟨y, s'⟩
  have ha := hw r s h
  rw [hr, hs] at ha
  cases ha with
  | done a h' => exact hf a r' s' h'
  | failed e f h' => exact .failed e f h'

theorem returns {g : α → β} (hw : Uniform R w) : Uniform R (w >>= fun a => Pure.pure (g a)) := hw.bind fun _ => .pure _

theorem map (f : α → β) (hw : Uniform R w) : Uniform R (f <$> w) := by
  rw [map_eq_pure_bind]
  exact hw.returns

theorem check (result : Except Error α) : Uniform R (Registry.check result) := by
  cases result with
  | ok a => exact .pure a
  | error e => exact .throw e

/-- Work that asks for something in which related registries agree. -/
theorem ask (question : Registry → β) (hq : ∀ {r s}, R r s → question r = question s)
    {k : β → Work α} (hk : ∀ b, Uniform R (k b)) :
    Uniform R (get >>= fun r => k (question r)) := by
  intro r s h
  have hs := hk (question s) r s h
  rw [run_bind, run_bind]
  simp only [run_get]
  rwa [hq h]

/-- Work that changes registries in a way that the relation respects. -/
theorem modify {f : Registry → Registry} (hf : ∀ {r s}, R r s → R (f r) (f s)) :
    Uniform R (MonadState.modifyGet fun r => ((), f r)) := fun _ _ h => .done () (hf h)

theorem try_ (hw : Uniform R w) :
    Uniform R (do
      try return some (← w)
      catch _ => return none : Work (Option α)) := by
  intro r s h
  rw [run_try, run_try]
  rcases hr : run w r with ⟨x, r'⟩
  rcases hs : run w s with ⟨y, s'⟩
  have ha := hw r s h
  rw [hr, hs] at ha
  cases ha with
  | done a h' => exact .done (some a) h'
  | failed e f h' => exact .done none h'

theorem mapM (as : List α) (hf : ∀ a ∈ as, Uniform R (f a)) : Uniform R (as.mapM f) := by
  induction as with
  | nil => exact .pure []
  | cons a as ih =>
    rw [mapM_cons]
    exact (hf a mem_cons_self).bind fun b =>
      (ih fun a' ha' => hf a' (mem_cons_of_mem a ha')).bind fun bs => .pure (b :: bs)

theorem foldlM {f : β → α → Work β} (as : List α) (hf : ∀ b, ∀ a ∈ as, Uniform R (f b a)) (b : β) :
    Uniform R (as.foldlM f b) := by
  induction as generalizing b with
  | nil => exact .pure b
  | cons a as ih =>
    rw [foldlM_cons]
    exact (hf b a mem_cons_self).bind fun b' =>
      ih (fun b a' ha' => hf b a' (mem_cons_of_mem a ha')) b'

end Uniform

def use (r : Registry) (name : String) : Registry :=
  { r with usedComponents := NameSet.add r.usedComponents name }

def usePackage (r : Registry) (package : String) : Registry :=
  { r with usedPackages := NameSet.add r.usedPackages package }

/-- A relation of registries that answer alike, which marking respects. -/
structure Indistinct (R : Registry → Registry → Prop) : Prop where
  component : ∀ {r s}, R r s → ∀ name, r.components.get? name = s.components.get? name
  size : ∀ {r s}, R r s → r.components.size = s.components.size
  ids : ∀ {r s}, R r s → r.ids = s.ids
  candidates : ∀ {r s}, R r s → ∀ wanted name,
    (r.candidates wanted name).Perm (s.candidates wanted name)
  use : ∀ {r s}, R r s → ∀ {wanted name package}, package ∈ r.candidates wanted name →
    R (r.use (package ++ "." ++ name)) (s.use (package ++ "." ++ name))
  usePackage : ∀ {r s}, R r s → ∀ package, R (r.usePackage package) (s.usePackage package)

theorem choosePackage_mem {current reference name package : String} {packages : List String}
    (h : choosePackage current reference name packages = .ok package) : package ∈ packages := by
  unfold choosePackage at h
  split at h
  · simp at h
  · cases h
    exact mem_singleton_self _
  · split at h
    · cases h
      exact contains_iff_mem.mp ‹_›
    · split at h
      · cases h
        exact contains_iff_mem.mp ‹_›
      · simp at h

theorem choosePackage_perm (current reference name : String) {ps qs : List String} (h : ps.Perm qs)
    {package : String} (hp : choosePackage current reference name ps = .ok package) :
    choosePackage current reference name qs = .ok package := by
  have hc : ∀ x : String, qs.contains x = ps.contains x := fun x => by
    rw [Bool.eq_iff_iff, contains_iff_mem, contains_iff_mem, h.mem_iff]
  match ps, qs, h, hp, hc with
  | [], _, _, hp, _ => simp [choosePackage] at hp
  | [p], qs, h, hp, _ =>
    obtain rfl := singleton_perm.mp h
    exact hp
  | p :: p' :: ps, [], h, _, _ => exact absurd h.length_eq (by simp)
  | p :: p' :: ps, [q], h, _, _ => exact absurd h.length_eq (by simp)
  | p :: p' :: ps, q :: q' :: qs, _, hp, hc =>
    simp only [choosePackage, hc] at hp ⊢
    split at hp
    · rename_i hcur
      rw [if_pos hcur]
      exact hp
    · rename_i hcur
      rw [if_neg hcur]
      split at hp
      · rename_i hroot
        rw [if_pos hroot]
        exact hp
      · simp at hp

/-- The package of what a reference means. -/
def meant (r : Registry) (current reference : String) : Except Error String :=
  choosePackage current reference (Package.splitName reference).2
    (r.candidates (Package.splitName reference).1 (Package.splitName reference).2)

theorem run_find (current reference : String) (register : Bool) (style : NameStyle) (r : Registry) :
    run (find current reference register style) r =
      if reference = rootName then (.ok (style.write rootPackage rootName), r)
      else match r.meant current reference with
        | .error e => (.error e, r)
        | .ok package => (.ok (style.write package (Package.splitName reference).2),
            if register then r.use (package ++ "." ++ (Package.splitName reference).2) else r) := by
  unfold find meant
  split
  · rfl
  · rcases Package.splitName reference with ⟨wanted, name⟩
    simp only [run_bind, run_get, run_check]
    cases choosePackage current reference name (r.candidates wanted name) with
    | error e => rfl
    | ok package => cases register <;> rfl

theorem meant_cases {s : Registry} (h : ∀ wanted name, (r.candidates wanted name).Perm (s.candidates wanted name))
    (current reference : String) :
    (∃ e f, r.meant current reference = .error e ∧ s.meant current reference = .error f) ∨
      ∃ package, r.meant current reference = .ok package ∧ s.meant current reference = .ok package := by
  rcases hr : r.meant current reference with e | package
  · rcases hs : s.meant current reference with f | package
    · exact .inl ⟨e, f, rfl, rfl⟩
    · cases hr.symm.trans (choosePackage_perm _ _ _ (h _ _).symm hs)
  · exact .inr ⟨package, rfl, choosePackage_perm _ _ _ (h _ _) hr⟩

theorem run_component_eq (name : String) (r : Registry) :
    run (component name) r =
      match r.components.get? name with
      | some c => (.ok c, r)
      | none => (.error (.missing name), r) := by
  unfold component
  rw [run_bind, run_get]
  dsimp only
  cases r.components.get? name <;> rfl

theorem Uniform.find (hR : Indistinct R) (current reference : String) (register : Bool) (style : NameStyle) :
    Uniform R (Registry.find current reference register style) := by
  intro r s h
  rw [run_find, run_find]
  split
  · exact .done _ h
  · rcases meant_cases (hR.candidates h) current reference with ⟨e, f, hr, hs⟩ | ⟨package, hr, hs⟩
    · rw [hr, hs]
      exact .failed e f h
    · rw [hr, hs]
      cases register with
      | true => exact .done _ (hR.use h (choosePackage_mem hr))
      | false => exact .done _ h

theorem Uniform.found (name : String) (found : Option Component) :
    Uniform R (match found with | some c => Pure.pure c | none => MonadExcept.throw (.missing name)) := by
  cases found with
  | none => exact .throw _
  | some c => exact .pure c

theorem Uniform.component (hR : Indistinct R) (name : String) : Uniform R (Registry.component name) := by
  have hfound := Uniform.ask (R := R) (fun r => r.components.get? name) (fun h => hR.component h name)
    (Uniform.found name)
  exact hfound

/-- Work that only resolves names ends alike where registries answer alike. -/
def Resolving (w : Work α) : Prop := ∀ R : Registry → Registry → Prop, Indistinct R → Uniform R w

class Resolves (w : Work α) : Prop where
  resolving : Resolving w

namespace Resolves

theorem uniform (hR : Indistinct R) (w : Work α) [h : Resolves w] : Uniform R w := h.resolving R hR

instance pure (a : α) : Resolves (Pure.pure a : Work α) := ⟨fun _ _ => .pure a⟩

instance throw (e : Error) : Resolves (MonadExcept.throw e : Work α) := ⟨fun _ _ => .throw e⟩

instance bind [Resolves w] [∀ a, Resolves (f a)] : Resolves (w >>= f) :=
  ⟨fun _ hR => (uniform hR w).bind fun a => uniform hR (f a)⟩

instance map [Resolves w] (g : α → β) : Resolves (g <$> w) := ⟨fun _ hR => (uniform hR w).map g⟩

instance ite {p : Prop} [Decidable p] {v : Work α} [Resolves w] [Resolves v] : Resolves (if p then w else v) := by
  split <;> assumption

instance check (result : Except Error α) : Resolves (Registry.check result) := ⟨fun _ _ => .check result⟩

instance mapM (as : List α) [∀ a, Resolves (f a)] : Resolves (as.mapM f) :=
  ⟨fun _ hR => .mapM as fun a _ => uniform hR (f a)⟩

instance foldlM {f : β → α → Work β} (as : List α) [∀ b a, Resolves (f b a)] (b : β) : Resolves (as.foldlM f b) :=
  ⟨fun _ hR => .foldlM as (fun b a _ => uniform hR (f b a)) b⟩

instance try_ [Resolves w] : Resolves (do
      try return some (← w)
      catch _ => return none : Work (Option α)) := ⟨fun _ hR => (uniform hR w).try_⟩

instance find (current reference : String) (register : Bool) (style : NameStyle) :
    Resolves (Registry.find current reference register style) := ⟨fun _ hR => .find hR _ _ _ _⟩

instance component (name : String) : Resolves (Registry.component name) := ⟨fun _ hR => .component hR name⟩

theorem ask (question : Registry → β) (hq : ∀ {R}, Indistinct R → ∀ {r s}, R r s → question r = question s)
    {k : β → Work α} [∀ b, Resolves (k b)] : Resolves (get >>= fun r => k (question r)) :=
  ⟨fun _ hR => .ask question (hq hR) fun b => uniform hR (k b)⟩

end Resolves

end QmlScript.Registry
