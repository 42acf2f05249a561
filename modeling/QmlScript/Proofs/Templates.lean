import QmlScript.Proofs.Platform.Precedence

/-!
# Templates filled from properties

A template is filled with the properties that stand under its names, if they are texts. Names with dots are not
looked up inside of properties, and blocks are looked for only when the properties are already filled in.
-/

namespace QmlScript.Build

open List Text Setting

def isJoinable : Json → Bool
  | .str _ | .null => true
  | _ => false

def textOf : Json → List Char
  | .str text => text.toList
  | _ => []

/-- The text of a template whose names have the given values. -/
def flat {α : Type} (value : α → List Char) (s : List (Char ⊕ α)) : List Char :=
  s.flatMap (Sum.elim List.singleton value)

theorem toOption_map {α β : Type} (f : α → β) (r : Except KindError α) :
    (do return f (← r)).toOption = r.toOption.map f := by cases r <;> rfl

theorem toOption_joinPieces (before pieces : List (Char ⊕ Json)) :
    (joinPieces before pieces).toOption =
      if pieces.all (Sum.elim (fun _ => true) isJoinable) then some (flat textOf pieces) else none := by
  induction pieces generalizing before with
  | nil => rfl
  | cons x pieces ih =>
    rcases x with c | v
    · rw [joinPieces, toOption_map, ih, apply_ite (Option.map _)]
      rfl
    · cases v with
      | str s =>
        rw [joinPieces, toOption_map, ih, apply_ite (Option.map _)]
        rfl
      | null =>
        rw [joinPieces, ih]
        rfl
      | _ => rfl

/-- The property with a name: inside of others at its dots. -/
def property (context : Context) (name : String) : Json := (at? (path name) (.obj context)).getD (.str "")

def named (template : String) : List (Char ⊕ String) := pieces placeholder? template.toList

theorem toOption_fillIn (context : Context) (template : String) :
    let value := fun name => (Json.field? name context).getD (.str "")
    (fillIn context template).toOption =
      if (named template).all (Sum.elim (fun _ => true) (isJoinable ∘ value)) then
        some (String.ofList (substitute block? (flat (textOf ∘ value) (named template))))
      else none := by
  intro value
  unfold fillIn
  dsimp only
  rw [map_congr_left (g := Sum.map id value), toOption_map, toOption_joinPieces, apply_ite (Option.map _),
    all_map, Sum.elim_comp_map]
  · simp only [flat, flatMap_map, Sum.elim_map]
    rfl
  · rintro (c | name) - <;> rfl

variable {start context : Context} {manifests : List Manifest}

/-- Names with dots stand for nothing in the fields of a context. -/
theorem field?_context_eq (hstart : ∀ field ∈ start, '.' ∉ field.1.toList)
    (hmanifests : ∀ manifest ∈ manifests, IsGiven manifest) (hcontext : addManifests start manifests = .ok context)
    (name : String) :
    (Json.field? name context).getD (.str "") = if '.' ∈ name.toList then .str "" else property context name := by
  by_cases hname : '.' ∈ name.toList
  · have hnone : ∀ fields : List (String × Json), (∀ field ∈ fields, '.' ∉ field.1.toList) →
        Json.field? name fields = none := fun fields hfields => Json.field?_eq_none fun hmem => by
      obtain ⟨field, hfield, rfl⟩ := mem_map.1 hmem
      exact hfields field hfield hname
    have hproperty : ∀ manifest ∈ manifests.reverse, manifest.property? name = none := fun manifest hmanifest => by
      unfold Manifest.property?
      cases hown : manifest.properties with
      | error e => rfl
      | ok properties =>
        have hproperties := Manifest.expanded_properties (hmanifests manifest (mem_reverse.1 hmanifest)).expanded hown
        cases properties with
        | obj fields => exact hnone fields fun field hfield => hproperties.undotted hfield
        | _ => rfl
    rw [field?_addManifests (fun manifest hmanifest => (hmanifests manifest hmanifest).expanded) hcontext,
      hnone start hstart, findSome?_eq_none_iff.2 hproperty, if_pos hname]
    rfl
  · rw [property, path_of_undotted hname, if_neg hname]
    cases hfield : Json.field? name context <;> simp [at?, hfield]

/-- A template is filled exactly if none of its names without dots stands for a number, a boolean, a list or an
object. Then these names are replaced by their properties and those with dots by nothing, and the blocks of the
text that comes of this are removed. -/
theorem filled_iff (hstart : ∀ field ∈ start, '.' ∉ field.1.toList)
    (hmanifests : ∀ manifest ∈ manifests, IsGiven manifest) (hcontext : addManifests start manifests = .ok context)
    (template text : String) :
    fillIn context template = .ok text ↔
      (∀ name, .inr name ∈ named template → '.' ∉ name.toList → isJoinable (property context name) = true) ∧
      text = String.ofList (substitute block?
        (flat (fun name => if '.' ∈ name.toList then [] else textOf (property context name)) (named template))) := by
  have hequal : fillIn context template = .ok text ↔ (fillIn context template).toOption = some text := by
    cases fillIn context template <;> simp [Except.toOption]
  rw [hequal, toOption_fillIn, Option.ite_none_right_eq_some]
  simp only [all_eq_true, Sum.forall, Sum.elim_inl, Sum.elim_inr, implies_true, true_and, Function.comp_def,
    funext (field?_context_eq hstart hmanifests hcontext), apply_ite isJoinable, apply_ite textOf, Option.some_inj]
  refine and_congr (forall₂_congr fun name _ => ?_) eq_comm
  by_cases hname : '.' ∈ name.toList <;> simp [isJoinable, hname]

def titleContext : Context := [("title", .str "News"), ("web", .obj [("title", .str "Live")])]

def titleTemplate : String := "\x7b\x7b title \x7d\x7d\x7b% \x7b\x7bweb.title\x7d\x7d %\x7d!"

theorem filled_title : fillIn titleContext titleTemplate = .ok "News!" := by
  have htitle : ({} : Manifest).setProperty "title" (.str "News") =
      .ok ⟨.obj [("properties", .obj [("title", .str "News")])]⟩ := rfl
  have hweb : (⟨.obj [("properties", .obj [("title", .str "News")])]⟩ : Manifest).setProperty "web.title"
        (.str "Live") =
      .ok ⟨.obj [("properties", .obj titleContext)]⟩ := rfl
  have hgiven : IsGiven ⟨.obj [("properties", .obj titleContext)]⟩ := .setProperty (.setProperty .empty htitle) hweb
  have hjoinable : (named titleTemplate).all (Sum.elim (fun _ => true) fun name =>
      name.toList.contains '.' || isJoinable (property titleContext name)) = true := by decide
  have hcontext : addManifests [] [⟨.obj [("properties", .obj titleContext)]⟩] = .ok titleContext := rfl
  refine (filled_iff (forall_mem_nil _) (forall_mem_singleton.2 hgiven) hcontext _ _).2
    ⟨fun name hname hdots => ?_, by decide⟩
  simpa [hdots] using all_eq_true.1 hjoinable _ hname

/-- A property inside of another is not found, and a boolean is not written. -/
theorem unfilled_title :
    at? (path "web.title") (.obj titleContext) = some (.str "Live") ∧
      fillIn titleContext "\x7b\x7bweb.title\x7d\x7d" = .ok "" ∧
      fillIn [("web", .bool true)] "\x7b\x7bweb\x7d\x7d" = .error (.notJoinable 0 "bool") :=
  ⟨rfl, rfl, rfl⟩

end QmlScript.Build
