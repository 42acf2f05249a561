import QmlScript.Proofs.Settings

/-!
# Settings by their names

A setting that was set is found under its name. Setting it again leaves nothing of the first value, and what is
found under a name stays the same when a setting is set whose name neither leads to it nor goes on from it.
-/

namespace QmlScript.Setting

open Json (field? setField)

variable {data data' value : Json} {way other : List String} {fields : List (String × Json)} {key : String}

theorem getPath_singleton (default : Json) :
    getPath default [key] (.obj fields) = .ok ((field? key fields).getD default) := rfl

theorem getPath_cons (default : Json) (hway : way ≠ []) :
    getPath default (key :: way) (.obj fields) = getPath default way ((field? key fields).getD (.obj [])) := by
  cases way with
  | nil => exact absurd rfl hway
  | cons next way => rfl

theorem getD_setField (inner : Json) : (field? key (setField key inner fields)).getD (.obj []) = inner := by
  rw [Json.field?_setField, if_pos rfl]
  rfl

theorem IsSet.getPath_eq (default : Json) (hway : way ≠ []) (h : IsSet value way data data') :
    getPath default way data' = .ok value := by
  induction h with
  | here => exact absurd rfl hway
  | @inside key way fields inner h ih =>
    cases way with
    | nil =>
      generalize (field? key fields).getD (.obj []) = old at h
      cases h
      rw [getPath_singleton, Json.field?_setField, if_pos rfl]
      rfl
    | cons next way =>
      rw [getPath_cons default (List.cons_ne_nil _ _), getD_setField]
      exact ih (List.cons_ne_nil _ _)

/-- What can be set once can be set again, and replaces the first value. -/
theorem IsSet.again (next : Json) (h : IsSet value way data data') :
    ∃ data'', setPath next way data' = .ok data'' ∧ setPath next way data = .ok data'' := by
  induction h with
  | here => exact ⟨next, rfl, rfl⟩
  | @inside key way fields inner _ ih =>
    obtain ⟨final, hafter, hbefore⟩ := ih
    refine ⟨.obj (setField key final fields), ?_, ?_⟩
    · rw [setPath_cons, getD_setField, hafter]
      exact congrArg (fun fields => Except.ok (Json.obj fields)) (Json.setField_setField inner final)
    · rw [setPath_cons, hbefore]
      rfl

theorem getPath_setField_of_ne (default inner : Json) {key' : String} (h : key ≠ key') :
    getPath default (key' :: other) (.obj (setField key inner fields)) =
      getPath default (key' :: other) (.obj fields) := by
  have hfield : field? key' (setField key inner fields) = field? key' fields := by
    rw [Json.field?_setField, if_neg h]
  cases other with
  | nil => rw [getPath_singleton, getPath_singleton, hfield]
  | cons next other =>
    rw [getPath_cons default (List.cons_ne_nil next other), getPath_cons default (List.cons_ne_nil next other), hfield]

/-- By induction on both paths, as long as they go the same way. -/
theorem IsSet.getPath_of_apart (default : Json) (h : IsSet value way data data') (hapart : Apart way other) :
    getPath default other data' = getPath default other data := by
  induction h generalizing other with
  | here => exact absurd List.nil_prefix hapart.1
  | @inside key way fields inner _ ih =>
    cases other with
    | nil => exact absurd List.nil_prefix hapart.2
    | cons key' other =>
      by_cases hkey : key = key'
      · subst hkey
        have hrest := hapart.of_cons
        have hother : other ≠ [] := fun hnil => hrest.2 (hnil ▸ List.nil_prefix)
        rw [getPath_cons default hother, getPath_cons default hother, getD_setField]
        exact ih hrest
      · exact getPath_setField_of_ne default inner hkey

/-- A setting is found as it was set, whatever stands for settings that are missing; the last of two values counts
alone; and nothing changes under names that part from its name. So the requirements of a platform are those that
were set for it. -/
theorem set_lawful {name : String} (h : set data name value = .ok data') :
    (∀ default, get data' name default = .ok value) ∧
      (∀ next, ∃ data'', set data' name next = .ok data'' ∧ set data name next = .ok data'') ∧
      (∀ other default, Apart (path name) (path other) → get data' other default = get data other default) ∧
      ∀ platform, name = "platform." ++ platform ++ ".requires" →
        Manifest.platformRequires ⟨data'⟩ platform = .ok value := by
  have hset := isSet_of_setPath h
  have hname := path_ne_nil name
  refine ⟨fun default => hset.getPath_eq default hname, fun next => hset.again next,
    fun other default hapart => hset.getPath_of_apart default hapart, ?_⟩
  rintro platform rfl
  exact hset.getPath_eq _ hname

/-- The requirements of a platform with a dot in its name, beside a setting of another one. -/
theorem set_lawful_dotted :
    ∃ data', set (.obj [("platform", .obj [("a", .obj [("x", .null)])])]) "platform.a.b.requires" (.arr [.str "core"]) =
        .ok data' ∧
      Manifest.platformRequires ⟨data'⟩ "a.b" = .ok (.arr [.str "core"]) ∧
      Apart (path "platform.a.b.requires") (path "platform.a.x") ∧
      get data' "platform.a.x" (.bool true) = .ok .null := by
  have hset : set (.obj [("platform", .obj [("a", .obj [("x", .null)])])]) "platform.a.b.requires"
        (.arr [.str "core"]) =
      .ok (.obj [("platform", .obj [("a", .obj [("x", .null), ("b", .obj [("requires", .arr [.str "core"])])])])]) := by
    cbv
  have hapart : Apart (path "platform.a.b.requires") (path "platform.a.x") := by
    have hpath : path "platform.a.b.requires" = ["platform", "a", "b", "requires"] := by cbv
    have hother : path "platform.a.x" = ["platform", "a", "x"] := by cbv
    rw [hpath, hother]
    decide
  obtain ⟨-, -, hother, hplatform⟩ := set_lawful hset
  exact ⟨_, hset, hplatform "a.b" rfl, hapart, (hother "platform.a.x" (.bool true) hapart).trans (by cbv)⟩

end QmlScript.Setting
