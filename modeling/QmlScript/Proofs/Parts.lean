import Mathlib.Data.List.Pairwise
import QmlScript.Proofs.AttachedOnce
import QmlScript.Proofs.SlotNames

/-!
# Every part is used and prepared

Each part of a component has one use, and preparing a component prepares all of them with it, so generating
never meets a part whose methods are not sorted.
-/

namespace QmlScript.Registry

open List Component Option

variable {c d : Component} {base : Option Component} {r r' : Registry} {entries : List (MethodKey × MethodEntry)}

theorem preparedMethods_setEntry (key : MethodKey) (method : Method)
    {methods : List (MethodKey × Method)} (h : preparedMethods entries = .ok methods) :
    ∃ methods', preparedMethods (Table.setEntry key (.prepared method) entries) = .ok methods' := by
  induction entries generalizing methods with
  | nil => exact ⟨_, rfl⟩
  | cons entry entries ih =>
    obtain ⟨k, _ | made⟩ := entry
    · cases h
    · obtain ⟨rest, hrest, -⟩ := of_bind_eq_ok h
      obtain ⟨methods', h'⟩ := ih hrest
      rw [Table.setEntry]
      split
      · exact ⟨_, by rw [preparedMethods, hrest]; rfl⟩
      · exact ⟨_, by rw [preparedMethods, h']; rfl⟩

def IsPrepared (c : Component) : Prop := ∃ methods handlers, Prepared c methods handlers

theorem IsPrepared.sortMethod (hc : IsPrepared c) {key : MethodKey} {entry : MethodEntry}
    (h : sortMethod c base key entry = .ok d) : IsPrepared d := by
  obtain ⟨methods, handlers, hc⟩ := hc
  cases entry with
  | prepared => cases h
  | declared method =>
    unfold Registry.sortMethod at h
    dsimp only at h
    split at h
    · obtain ⟨kind, -, h⟩ := of_bind_eq_ok h
      dsimp only at h
      split at h <;> cases h
      exact ⟨methods, _, hc.methods, rfl⟩
    · split at h <;> cases h
      obtain ⟨methods', h'⟩ := preparedMethods_setEntry _ _ hc.methods
      exact ⟨methods', handlers, h', hc.handlers⟩

theorem IsPrepared.sortMethods (hc : IsPrepared c)
    (h : sortMethods c base entries = (d, none)) : IsPrepared d := by
  induction entries generalizing c with
  | nil =>
    cases h
    exact hc
  | cons entry entries ih =>
    rw [Registry.sortMethods] at h
    split at h
    · next hone => exact ih (hc.sortMethod hone) h
    · cases h

theorem prepareParts_ok {parts parts' : List Component} (h : prepareParts parts r = ((parts', none), r')) :
    ∀ part ∈ parts', ∃ c s s', prepareComponent c s = ((part, none), s') := by
  induction parts generalizing r parts' with
  | nil =>
    rw [prepareParts] at h
    cases h
    exact fun part hpart => absurd hpart not_mem_nil
  | cons part parts ih =>
    rw [prepareParts] at h
    split at h
    · cases h
    · next hone =>
      split at h
      next hrest =>
      cases h
      exact forall_mem_cons.mpr ⟨⟨part, r, _, hone⟩, ih hrest⟩

theorem prepareComponent_ok (h : prepareComponent c r = ((d, none), r')) :
    IsPrepared d ∧ ∀ part ∈ d.parts, ∃ c s s', prepareComponent c s = ((part, none), s') := by
  rw [prepareComponent_eq] at h
  split at h
  · cases h
  · next parts s hparts =>
    split at h
    · cases h
    · next base hbase =>
      obtain ⟨hsort, -⟩ := Prod.mk.inj h
      refine ⟨IsPrepared.sortMethods ⟨[], {}, rfl, rfl⟩ hsort, ?_⟩
      have hd := congrArg Component.parts (sortMethods_withoutMethods
        { c with parts, methods := {}, handlers := some {} } base c.methods.entries)
      rw [hsort] at hd
      exact (show d.parts = parts from hd) ▸ prepareParts_ok hparts

theorem mem_ids_of_at? {path : List Nat} (h : c.at? path = some d) : d.ids ⊆ c.ids := by
  have hparts : ∀ {parts : List Component}, ∀ part ∈ parts, part.ids ⊆ idsOfParts parts := by
    intro parts
    induction parts with
    | nil => exact fun part hpart => absurd hpart not_mem_nil
    | cons other parts ih =>
      rw [idsOfParts, forall_mem_cons]
      exact ⟨subset_append_left _ _, fun part hpart => subset_append_of_subset_right _ (ih part hpart)⟩
  refine of_at? (P := fun e => e.ids ⊆ c.ids) (fun {e} he part hpart id hid => he ?_) (fun _ hid => hid) h
  rw [ids_eq e]
  exact mem_append_right _ (hparts part hpart hid)

/-- In a component that was built, and in each part inside of it, every part is used once, and every name stands
for one property, alias or choice; the table of properties has those of the declarations. If the component is
prepared, so is every part inside of it, and all identifiers are known. -/
theorem parts_used_and_prepared {name : String} {prototype : Bool} {tree : Tree}
    (hbuild : Component.build name prototype tree = .ok c) :
    (∀ path part, c.at? path = some part → part.uses.Perm (range part.parts.length) ∧ part.names.Nodup ∧
      part.declared.entries = part.declaredProperties ∧
      ∀ name p, part.declared.get? name = some p ↔ (name, p) ∈ part.declaredProperties) ∧
    ∀ r d r', prepareComponent c r = ((d, none), r') →
      (∀ path part, c.at? path = some part → ∃ part' methods handlers, d.at? path = some part' ∧
        part'.bare = part.bare ∧ Prepared part' methods handlers ∧ ∀ id ∈ part.id, id ∈ r'.ids) ∧
      ∀ path part', d.at? path = some part' → ∃ part, c.at? path = some part ∧ part'.bare = part.bare := by
  have hbuilt := isBuilt_of_build hbuild
  refine ⟨fun path part hpart => ?_, fun r d r' hprepare => ⟨fun path part hpart => ?_, fun path part' hpart' => ?_⟩⟩
  · have hpart := hbuilt.at? hpart
    have hkeys : part.declared.keys.Nodup := (nodup_append'.mp (nodup_append'.mp hpart.complete.names).1).1
    refine ⟨hpart.complete.uses, hpart.complete.names, hpart.declared, fun name p => ?_⟩
    rw [← hpart.declared]
    exact ⟨Table.mem_entries_of_get?, Table.get?_of_mem_entries hkeys⟩
  all_goals
    have hbare := at?_bare path d
    rw [bare_of_prepared hprepare, at?_bare] at hbare
  · rw [hpart] at hbare
    obtain ⟨part', hpart', heq⟩ := map_eq_some_iff.mp hbare.symm
    obtain ⟨s, t, u, hprepared⟩ := of_at? (P := fun d => ∃ c s s', prepareComponent c s = ((d, none), s'))
      (fun ⟨_, _, _, h⟩ => (prepareComponent_ok h).2) ⟨c, r, r', hprepare⟩ hpart'
    obtain ⟨methods, handlers, hsorted⟩ := (prepareComponent_ok hprepared).1
    refine ⟨part', methods, handlers, hpart', heq, hsorted, fun id hid => ?_⟩
    have hlearnt := (mem_ids_prepareComponent c r id).mpr (.inr (mem_ids_of_at? hpart ?_))
    · rwa [hprepare] at hlearnt
    · rw [ids_eq]
      exact mem_append_left _ (mem_toList.mpr hid)
  · rw [hpart'] at hbare
    obtain ⟨part, hpart, heq⟩ := map_eq_some_iff.mp hbare
    exact ⟨part, hpart, heq.symm⟩

/-- A type with parts of each kind, two named and one with a handler. -/
def popup : Tree :=
  .component none "CoreObject" [
    .property none "lazy" [("tip", .component none "CoreObject" [.identifier none "tip"])],
    .property none "var" [("header", .component none "CoreObject" [emptyPart])],
    .behavior none ["width"] emptyPart,
    .component none "CoreObject" [
      .identifier none "body", .method none ["onCompleted"] [] "\x7b\x7d" true false]]

set_option maxRecDepth 100000 in
theorem popup_used_and_prepared :
    ∃ c d r part part' methods handlers, Component.build "ui.Card" true popup = .ok c ∧
      prepareComponent c blank = ((d, none), r) ∧ c.uses.Perm (range 4) ∧ c.at? [3] = some part ∧
      d.at? [3] = some part' ∧ Prepared part' methods handlers ∧ part.id = some "body" ∧ "body" ∈ r.ids := by
  let check (c : Component) : Bool := c.parts.length = 4 && ((c.at? [3]).bind (·.id)) = some "body"
  obtain ⟨c, d, r, hbuild, hprepare, hcheck, -⟩ :=
    exists_of_isWritten (by decide +kernel : isWritten check popup = true)
  obtain ⟨hlength, hbody⟩ := Bool.and_eq_true_iff.mp hcheck
  obtain ⟨part, hpart, hid⟩ := bind_eq_some_iff.mp (of_decide_eq_true hbody)
  obtain ⟨hused, hprepared⟩ := parts_used_and_prepared hbuild
  obtain ⟨part', methods, handlers, hpart', -, hsorted, hids⟩ := (hprepared _ _ _ hprepare).1 _ _ hpart
  refine ⟨c, d, r, part, part', methods, handlers, hbuild, hprepare, ?_, hpart, hpart', hsorted, hid, hids _ hid⟩
  exact of_decide_eq_true hlength ▸ (hused [] c rfl).1

end QmlScript.Registry
