import QmlScript.Proofs.Walks

/-!
# What a scan does to a catalog

A catalog is told by the message that it has for each context and source. A request changes that message only,
so after a scan a message depends on whether it was asked for, and on nothing else.
-/

namespace QmlScript.Localization

open List Catalog Table

variable {catalog : Catalog}

def Catalog.message? (catalog : Catalog) (context source : String) : Option Message :=
  (catalog.contexts.get? context).bind (·.messages.get? source)

def Message.use (m : Message) : Message := { m with wording := m.wording.use }

@[simp] theorem Wording.use_use (w : Wording) : w.use.use = w.use := by
  unfold Wording.use
  split <;> simp_all

@[simp] theorem Message.use_use (m : Message) : m.use.use = m.use := by simp [Message.use]

structure Ask where
  context : String
  source : String
  location : Location

/-- The message of something that is asked for for the first time. -/
def Ask.message (ask : Ask) : Message := { location := some ask.location, source := ask.source }

theorem Ask.use_message (ask : Ask) : ask.message.use = ask.message := by
  have hnew : ({} : Wording).use = {} := by decide
  rw [Message.use, Ask.message, hnew]

def Ask.answer (ask : Ask) (old : Option Message) : Message := (old.map Message.use).getD ask.message

def Ask.IsFor (ask : Ask) (context source : String) : Prop := ask.context = context ∧ ask.source = source

instance (ask : Ask) (context source : String) : Decidable (ask.IsFor context source) :=
  inferInstanceAs (Decidable (_ ∧ _))

def Catalog.ask (catalog : Catalog) (ask : Ask) : Catalog := catalog.add ask.context ask.source ask.location

theorem get?_add (c : Context) (source : String) (location : Location) (other : String) :
    (c.add source location).messages.get? other =
      if source = other then some (Ask.answer ⟨c.name, source, location⟩ (c.messages.get? source))
      else c.messages.get? other := by
  unfold Context.add
  split
  · rename_i m hm
    rw [get?_insert, hm]
    rfl
  · rename_i hm
    rw [get?_insert, hm]
    rfl

theorem message?_ask (catalog : Catalog) (ask : Ask) (context source : String) :
    (catalog.ask ask).message? context source =
      if ask.IsFor context source then some (ask.answer (catalog.message? context source))
      else catalog.message? context source := by
  unfold Catalog.ask Catalog.add Catalog.message?
  dsimp only
  rw [get?_insert]
  by_cases hcontext : ask.context = context
  · subst hcontext
    rw [if_pos rfl, Option.bind_some, get?_add]
    by_cases hsource : ask.source = source
    · subst hsource
      rw [if_pos rfl, if_pos (show ask.IsFor _ _ from ⟨rfl, rfl⟩)]
      cases catalog.contexts.get? ask.context with
      | none | some c => rfl
    · rw [if_neg hsource, if_neg fun h : ask.IsFor _ _ => hsource h.2]
      cases catalog.contexts.get? ask.context with
      | none | some c => rfl
  · rw [if_neg hcontext, if_neg fun h : ask.IsFor _ _ => hcontext h.1]

/-- The message behind several requests is that behind the first for it. -/
theorem message?_foldl_ask (catalog : Catalog) (asks : List Ask) (context source : String) :
    (asks.foldl ask catalog).message? context source =
      ((asks.find? (·.IsFor context source)).map (·.answer (catalog.message? context source))).or
        (catalog.message? context source) := by
  induction asks generalizing catalog with
  | nil => rfl
  | cons ask asks ih =>
    rw [foldl_cons, ih, message?_ask]
    by_cases hask : ask.IsFor context source
    · rw [if_pos hask, find?_cons_of_pos (by simpa using hask)]
      cases asks.find? (·.IsFor context source) with
      | none => rfl
      | some later =>
        -- what is in use stays as it is, whether it is old or new
        refine congrArg some ?_
        unfold Ask.answer
        cases catalog.message? context source with
        | none => exact ask.use_message
        | some m => exact m.use_use
    · rw [if_neg hask, find?_cons_of_neg (by simpa using hask)]

def Ask.key (ask : Ask) : String × String := (ask.context, ask.source)

theorem find?_isFor_isSome {asks : List Ask} {context source : String} :
    (asks.find? (·.IsFor context source)).isSome ↔ (context, source) ∈ asks.map Ask.key := by
  simp only [find?_isSome, decide_eq_true_eq, mem_map, Ask.key, Prod.mk.injEq]
  exact Iff.rfl

theorem message?_foldl_ask_of_some {context source : String} {m : Message}
    (hm : catalog.message? context source = some m) (asks : List Ask) :
    (asks.foldl ask catalog).message? context source =
      some (if (context, source) ∈ asks.map Ask.key then m.use else m) := by
  rw [message?_foldl_ask, hm]
  cases hfind : asks.find? (·.IsFor context source) with
  | none => rw [if_neg fun h => by simpa [hfind] using find?_isFor_isSome.mpr h]; rfl
  | some ask => rw [if_pos (find?_isFor_isSome.mp (hfind ▸ rfl))]; rfl

theorem message?_foldl_ask_of_none {context source : String}
    (hm : catalog.message? context source = none) (asks : List Ask) :
    (asks.foldl ask catalog).message? context source = (asks.find? (·.IsFor context source)).map Ask.message := by
  rw [message?_foldl_ask, hm, Option.or_none]
  rfl

/-- Each message of a context stands under its source, once. -/
structure Context.IsKeyed (c : Context) : Prop where
  keys : c.messages.keys.Nodup
  sources : ∀ source m, c.messages.get? source = some m → m.source = source

structure Catalog.IsKeyed (catalog : Catalog) : Prop where
  keys : catalog.contexts.keys.Nodup
  names : ∀ name c, catalog.contexts.get? name = some c → c.name = name ∧ c.IsKeyed

theorem Catalog.IsKeyed.source (h : catalog.IsKeyed) {context source : String} {m : Message}
    (hm : catalog.message? context source = some m) : m.source = source := by
  obtain ⟨c, hc, hm⟩ := Option.bind_eq_some_iff.mp hm
  exact (h.names context c hc).2.sources source m hm

theorem Context.IsKeyed.add {c : Context} (h : c.IsKeyed) (source : String) (location : Location) :
    (c.add source location).IsKeyed := by
  refine ⟨?_, fun other m hm => ?_⟩
  · unfold Context.add
    split <;> exact nodup_keys_insert h.keys _ _
  · rw [get?_add] at hm
    split at hm
    · rename_i hsource
      cases hm
      rw [← hsource]
      cases hold : c.messages.get? source with
      | none => rfl
      | some old => exact h.sources source old hold
    · exact h.sources other m hm

theorem Catalog.IsKeyed.ask (h : catalog.IsKeyed) (ask : Ask) : (catalog.ask ask).IsKeyed := by
  refine ⟨nodup_keys_insert h.keys _ _, fun name c hc => ?_⟩
  have hget := get?_insert catalog.contexts ask.context name
    (((catalog.contexts.get? ask.context).getD { name := ask.context }).add ask.source ask.location)
  rw [show (catalog.ask ask).contexts.get? name = _ from hget] at hc
  split at hc
  · rename_i hname
    cases hc
    rw [← hname]
    cases hold : catalog.contexts.get? ask.context with
    | none =>
      have hnew : ({ name := ask.context } : Context).IsKeyed := ⟨nodup_nil, fun _ _ hm => by cases hm⟩
      exact ⟨by unfold Context.add; split <;> rfl, hnew.add _ _⟩
    | some old =>
      obtain ⟨hold, hkeyed⟩ := h.names _ _ hold
      exact ⟨by rw [← hold]; unfold Context.add; split <;> rfl, hkeyed.add _ _⟩
  · exact h.names name c hc

theorem Catalog.IsKeyed.foldl_ask (h : catalog.IsKeyed) (asks : List Ask) :
    (asks.foldl Catalog.ask catalog).IsKeyed := by
  induction asks generalizing catalog with
  | nil => exact h
  | cons ask asks ih => exact ih (h.ask ask)

structure SourceText where
  path : String
  context : String
  text : String

def SourceText.asks (file : SourceText) : List Ask :=
  (requests file.text).map fun request =>
    ⟨file.context, request.source, Path.normalise file.path, .counted (lineAt file.text request.position)⟩

def SourceText.read (tree : FileTree) (file : String × String) : Except FileError SourceText :=
  (tree.read file.1).map (SourceText.mk file.1 file.2)

def sourceTexts (tree : FileTree) (directories : List String) : Except FileError (List SourceText) :=
  (directories.flatMap (sourceFiles tree)).mapM (SourceText.read tree)

theorem scanFile_eq (tree : FileTree) (catalog : Catalog) (file : String × String) :
    scanFile tree catalog file.1 file.2 =
      ((SourceText.read tree file).mapError .file).map fun read => read.asks.foldl ask catalog := by
  unfold scanFile SourceText.read
  cases tree.read file.1 with
  | error cause => rfl
  | ok text =>
    have hasks : (SourceText.mk file.1 file.2 text).asks.foldl ask catalog =
        catalog.addText file.2 (Path.normalise file.1) text := by
      rw [SourceText.asks, foldl_map]
      rfl
    exact congrArg Except.ok hasks.symm

theorem scan_eq (tree : FileTree) (catalog : Catalog) (directories : List String) :
    catalog.scan tree directories =
      ((sourceTexts tree directories).mapError .file).map fun texts =>
        (texts.flatMap SourceText.asks).foldl ask catalog := by
  change List.foldlM (fun catalog (file : String × String) => scanFile tree catalog file.1 file.2) catalog _ = _
  unfold sourceTexts
  induction directories.flatMap (sourceFiles tree) generalizing catalog with
  | nil => rfl
  | cons file files ih =>
    rw [foldlM_cons, mapM_cons, scanFile_eq]
    cases SourceText.read tree file with
    | error cause => rfl
    | ok read =>
      refine (ih _).trans ?_
      cases files.mapM (SourceText.read tree) with
      | error cause => rfl
      | ok texts => exact congrArg Except.ok (foldl_append ..).symm

theorem exists_sourceTexts {tree : FileTree} (h : tree.IsNamed) (directories : List String) :
    ∃ texts, sourceTexts tree directories = .ok texts := by
  have hread : ∀ file ∈ directories.flatMap (sourceFiles tree), ∃ text, tree.read file.1 = .ok text := by
    intro file hfile
    obtain ⟨directory, -, hfile⟩ := mem_flatMap.mp hfile
    obtain ⟨visit, hvisit, hfile⟩ := mem_flatMap.mp hfile
    obtain ⟨name, hname, hfile⟩ := mem_filterMap.mp hfile
    dsimp only at hfile
    split at hfile
    · cases hfile
      exact FileTree.exists_read_of_walk h hvisit hname
    · cases hfile
  unfold sourceTexts
  generalize directories.flatMap (sourceFiles tree) = files at hread
  induction files with
  | nil => exact ⟨[], rfl⟩
  | cons file files ih =>
    obtain ⟨text, htext⟩ := hread file (mem_cons_self ..)
    obtain ⟨texts, htexts⟩ := ih fun other hother => hread other (mem_cons_of_mem _ hother)
    refine ⟨⟨file.1, file.2, text⟩ :: texts, ?_⟩
    rw [mapM_cons, SourceText.read, htext, htexts]
    rfl

end QmlScript.Localization
