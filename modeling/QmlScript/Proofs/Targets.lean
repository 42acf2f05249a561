import QmlScript.Proofs.DottedNames
import QmlScript.Proofs.Work
import QmlScript.Registry.Handlers

/-!
# Paths that are written and read

A target of an assignment is written as it stands, and a path that is read has its first segment resolved.
Both mean the same object if and only if resolving leaves the first segment alone, as it does with properties
and with the parent.
-/

namespace QmlScript.Registry

open QmlScript.Script

variable {c : Component} {r : Registry} {parent object head : String} {rest : List String}

theorem run_pathRoot_eq_self (c : Component) (r : Registry) (name : String) :
    (run (pathRoot c none name) r).1 = .ok name ↔
      name = "parent" ∨ name ≠ "context" ∧ (run (hasProperty c name) r).1 = .ok true := by
  unfold pathRoot
  dsimp only
  split
  · next hcontext =>
    subst hcontext
    exact iff_of_false (fun h => absurd (Except.ok.inj h) (by decide)) (by simp)
  · next hcontext =>
    split
    · next hparent => exact iff_of_true (congrArg _ hparent.symm) (.inl hparent)
    · next hparent =>
      rw [run_bind]
      simp only [hcontext, hparent, false_or, ne_eq, not_false_eq_true, true_and]
      rcases run (hasProperty c name) r with ⟨e | found, s⟩
      · exact iff_of_false nofun nofun
      · cases found with
        | true => exact iff_of_true rfl rfl
        | false =>
          -- a text that is looked up is longer than the text itself
          refine iff_of_false (fun h => ?_) nofun
          have hlength : ("_get('" ++ name ++ "')").length = name.length := congrArg _ (Except.ok.inj h)
          rw [String.length_append, String.length_append, show "_get('".length = 6 from rfl] at hlength
          omega

theorem run_readPath (h : splitText '.' object = head :: rest) :
    (run (readPath c parent object) r).1 = (run (pathRoot c none head) r).1.map fun first =>
      parent ++ "." ++ ".".intercalate (first :: rest) := by
  unfold readPath
  rw [h, joinPath, run_bind, run_bind]
  rcases run (pathRoot c none head) r with ⟨_ | first, s⟩ <;> rfl

theorem intercalate_cons_inj (sep first : String) :
    sep.intercalate (first :: rest) = sep.intercalate (head :: rest) ↔ first = head := by
  cases rest with
  | nil => simp
  | cons next rest => simp [String.intercalate_cons_cons, String.append_assoc]

theorem checkTarget_head {property : String} (h : splitText '.' object = head :: rest)
    (hproperty : '.' ∉ property.toList) (hids : head ∉ r.ids)
    (hcheck : (run (checkTarget c (object ++ "." ++ property)) r).1 = .ok ()) :
    (run (hasProperty c head) r).1 = .ok true := by
  obtain ⟨next, others, hsplit⟩ : ∃ next others,
      splitText '.' (object ++ "." ++ property) = head :: next :: others := by
    rw [splitText_append _ hproperty, h]
    cases rest with
    | nil | cons next rest => exact ⟨_, _, rfl⟩
  rw [checkTarget, hsplit] at hcheck
  dsimp only at hcheck
  rw [run_bind, run_get] at hcheck
  simp only [List.contains_iff_mem, hids, if_false, run_bind] at hcheck
  revert hcheck
  rcases run (hasProperty c head) r with ⟨e | found, s⟩
  · exact nofun
  · cases found with
    | true => exact fun _ => rfl
    | false => exact nofun

/-- The object that is assigned to is the one that is read, if the path starts at a property or at the parent; one
that starts at an identifier or at the context is accepted all the same. -/
theorem owner_eq_readPath_iff (parent object property : String) (hproperty : '.' ∉ property.toList)
    (hcheck : (run (checkTarget c (object ++ "." ++ property)) r).1 = .ok ()) :
    ∃ head rest, splitText '.' object = head :: rest ∧
      let owner := (assignmentTarget parent (object ++ "." ++ property)).1
      ((run (readPath c parent object) r).1 = .ok owner ↔
        head = "parent" ∨ head ≠ "context" ∧ (run (hasProperty c head) r).1 = .ok true) ∧
      (head ∉ r.ids → head ≠ "context" → (run (readPath c parent object) r).1 = .ok owner) := by
  obtain ⟨head, rest, hsplit⟩ := List.exists_cons_of_ne_nil (splitText_ne_nil '.' object)
  refine ⟨head, rest, hsplit, ?_⟩
  have howner : (assignmentTarget parent (object ++ "." ++ property)).1 =
      parent ++ "." ++ ".".intercalate (head :: rest) := by
    rw [assignmentTarget, splitText_append _ hproperty, hsplit, List.dropLast_concat, String.intercalate_cons_cons]
  have hiff : (run (readPath c parent object) r).1 = .ok (parent ++ "." ++ ".".intercalate (head :: rest)) ↔
      (run (pathRoot c none head) r).1 = .ok head := by
    rw [run_readPath hsplit]
    rcases (run (pathRoot c none head) r).1 with _ | first
    · exact iff_of_false nofun nofun
    · simp [Except.map, intercalate_cons_inj]
  intro owner
  rw [show owner = _ from howner, hiff, run_pathRoot_eq_self]
  exact ⟨.rfl, fun hids hcontext => .inr ⟨hcontext, checkTarget_head hsplit hproperty hids hcheck⟩⟩

def dial : Component :=
  let anchors : Property := { doc := none, type := "Item", items := [("anchors", .absent)] }
  { name := "ui.Dial", base := rootName, prototype := true
    properties := [anchors], declared := ⟨[("anchors", anchors)]⟩ }

def dials : Registry := { ns := "qml", buildId := "1", ids := ["context", "model", "needle"] }

theorem owner_eq_readPath_iff_dial :
    (run (readPath dial "$this" "anchors.left") dials).1 =
      .ok (assignmentTarget "$this" ("anchors.left" ++ "." ++ "margin")).1 := by
  obtain ⟨head, rest, hsplit, -, hsame⟩ :=
    owner_eq_readPath_iff (c := dial) (r := dials) "$this" "anchors.left" "margin"
    (by decide) (by rfl)
  obtain ⟨rfl, rfl⟩ : head = "anchors" ∧ rest = ["left"] := by
    have hpath : splitText '.' "anchors.left" = ["anchors", "left"] := by decide
    simp_all
  exact hsame (by decide) (by decide)

/-- Both targets are accepted, and what is assigned to is looked for where it is not. -/
theorem owner_not_read :
    (run (checkTarget dial "needle.angle") dials).1.isOk = true ∧
      (assignmentTarget "$this" "needle.angle").1 = "$this.needle" ∧
      (run (readPath dial "$this" "needle") dials).1.toOption = some "$this._get('needle')" ∧
      (run (checkTarget dial "context.language") dials).1.isOk = true ∧
      (assignmentTarget "$this" "context.language").1 = "$this.context" ∧
      (run (readPath dial "$this" "context") dials).1.toOption = some "$this._context" := by
  decide

end QmlScript.Registry
