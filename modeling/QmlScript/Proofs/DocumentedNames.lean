import QmlScript.Documentation.Page
import QmlScript.Proofs.Fields

/-!
# Documented names

A page has an entry for the first name of each declaration, with the documentation of the last declaration that
starts with that name. The other names of a declaration have no entries, and of the documentation of a method an
entry shows one line.
-/

namespace QmlScript.Documentation

open List Text

inductive Kind where
  | properties
  | aliases
  | signals
  | methods
  deriving DecidableEq

def Kind.title : Kind → String
  | properties => "Properties"
  | aliases => "Alias Properties"
  | signals => "Signals"
  | methods => "Methods"

/-- The kind of a declaration, its names and its documentation. -/
def declared : Tree → Option (Kind × List String × Option String)
  | .property doc _ items => some (.properties, items.map Prod.fst, doc)
  | .alias doc name _ => some (.aliases, [name], doc)
  | .signal doc name => some (.signals, [name], doc)
  | .method doc names _ _ _ _ => some (.methods, names, doc)
  | _ => none

def firstName? (kind : Kind) (d : Tree) : Option (String × Option String) :=
  match declared d with
  | some (found, name :: _, doc) => if found = kind then some (name, doc) else none
  | _ => none

/-- The documentation of the last declaration of a kind under a name. -/
def lastDoc? (kind : Kind) (name : String) (body : List Tree) : Option (Option String) :=
  ((body.filterMap (firstName? kind)).reverse.find? (·.1 = name)).map Prod.snd

/-- What an entry shows of a documentation; of a method's, its last line, or the first if braces describe a parameter.
-/
def shownText (kind : Kind) (doc : Option String) : String :=
  let lines := lines (docText doc).toList
  match kind, lines.head?, lines.getLast? with
  | .methods, some first, some last =>
    let line := if (lines.filterMap parameter?).any (·.isBraced) then first else last
    String.ofList (trimBy (fun c => c = ' ' || c = '*') line)
  | _, _, _ => docText doc

def shown? (paths : PathMap) (body : List Tree) (kind : Kind) (name : String) : Option Json :=
  ((content paths body).get? kind.title).bind (·.get? name)

def sectionOf? (body : List Tree) (choose : Tree → Option (String × Json)) : Option Json :=
  match body.filterMap choose with
  | [] => none
  | entries => some (Json.ofPairs entries)

theorem field?_foldl_setField (pairs fields : List (String × Json)) (name : String) :
    Json.field? name (pairs.foldl (fun fields (k, v) => Json.setField k v fields) fields) =
      ((pairs.reverse.find? (·.1 = name)).map Prod.snd).or (Json.field? name fields) := by
  induction pairs generalizing fields with
  | nil => rfl
  | cons pair pairs ih =>
    rw [foldl_cons, ih, Json.field?_setField, reverse_cons, find?_append]
    cases pairs.reverse.find? (·.1 = name) with
    | some found => rfl
    | none => by_cases h : pair.1 = name <;> simp [h]

/-- A section with a title of its own is found under that title. -/
theorem field?_filterMap {χ : Type} (f : χ → Option Json) {l : List (String × χ)} (hnodup : (l.map Prod.fst).Nodup)
    {title : String} {choose : χ} (h : (title, choose) ∈ l) :
    Json.field? title (l.filterMap fun s => (f s.2).map (s.1, ·)) = f choose := by
  induction l with
  | nil => cases h
  | cons s l ih =>
    rw [map_cons, nodup_cons] at hnodup
    rcases mem_cons.1 h with rfl | h
    · cases hf : f choose with
      | some v => simp [hf, Json.field?]
      | none =>
        refine Option.eq_none_iff_forall_ne_some.2 fun v hv => hnodup.1 ?_
        have hmem := Json.mem_of_field? hv
        simp only [hf, filterMap_cons, Option.map_none, mem_filterMap, Option.map_eq_some_iff] at hmem
        obtain ⟨s, hs, _, _, heq⟩ := hmem
        exact mem_map.2 ⟨s, hs, (Prod.mk.inj heq).1⟩
    · have hne : s.1 ≠ title := fun heq => hnodup.1 (heq ▸ mem_map_of_mem h)
      rw [← ih hnodup.2 h]
      cases hf : f s.2 <;> simp [hf, Json.field?, hne]

variable (paths : PathMap) (body : List Tree) (kind : Kind) (name : String)

theorem shown?_eq {choose : Tree → Option (String × Json)} (h : (kind.title, choose) ∈ sections paths) :
    shown? paths body kind name = ((body.filterMap choose).reverse.find? (·.1 = name)).map Prod.snd := by
  have hcontent : content paths body =
      .obj ((sections paths).filterMap fun s => (sectionOf? body s.2).map (s.1, ·)) := by
    refine congrArg Json.obj (filterMap_congr fun s _ => ?_)
    dsimp only [sectionOf?]
    cases body.filterMap s.2 <;> rfl
  have htitles : ((sections paths).map Prod.fst).Nodup := by
    show ["Properties", "Alias Properties", "Signals", "Methods"].Nodup
    decide
  rw [shown?, hcontent, Json.get?, field?_filterMap (sectionOf? body) htitles h, sectionOf?]
  cases body.filterMap choose with
  | nil => rfl
  | cons entry entries => exact (field?_foldl_setField _ [] name).trans Option.or_none

theorem text_describeMethod (doc : Option String) :
    (describeMethod doc name).get? "text" = some (.str (shownText .methods doc)) := by
  unfold describeMethod shownText
  dsimp only
  cases (lines (docText doc).toList).head? with
  | none => rfl
  | some first => cases (lines (docText doc).toList).getLast? <;> rfl

/-- Each kind has a section, with the first names of its declarations. -/
theorem section_of_kind : ∃ choose, (kind.title, choose) ∈ sections paths ∧ ∀ d,
    (choose d).map (fun entry => (entry.1, entry.2.get? "text")) =
      (firstName? kind d).map fun first => (first.1, some (.str (shownText kind first.2))) := by
  cases kind
  case' properties => refine ⟨_, .head _, fun d => ?_⟩
  case' aliases => refine ⟨_, .tail _ (.head _), fun d => ?_⟩
  case' signals => refine ⟨_, .tail _ (.tail _ (.head _)), fun d => ?_⟩
  case' methods => refine ⟨_, .tail _ (.tail _ (.tail _ (.head _))), fun d => ?_⟩
  all_goals
    cases d with
    | property doc type items => cases items <;> rfl
    | method doc names _ _ _ _ =>
      cases names with
      | nil => rfl
      | cons name names => first | rfl | exact congrArg (fun text => some (name, text)) (text_describeMethod name doc)
    | _ => rfl

/-- A name has an entry exactly if a declaration of the kind starts with it, and the entry shows the documentation
of the last such declaration. -/
theorem documented_text :
    (shown? paths body kind name).map (·.get? "text") =
      (lastDoc? kind name body).map fun doc => some (.str (shownText kind doc)) := by
  obtain ⟨choose, hmem, htext⟩ := section_of_kind paths kind
  have hlists := congrArg (fun f => ((body.filterMap f).reverse.find? (·.1 = name)).map Prod.snd) (funext htext)
  simp only [← map_filterMap, ← map_reverse, find?_map, Option.map_map] at hlists
  rw [shown?_eq paths body kind name hmem, lastDoc?, Option.map_map, Option.map_map]
  exact hlists

/-- The second of two properties that are declared together has no entry. -/
theorem second_name_lost : shown? .empty [.property none "int" [("x", .plain .null), ("y", .plain .null)]]
    .properties "y" = none := by
  decide

end QmlScript.Documentation
