import QmlScript.Proofs.Localization.Document

/-!
# Localized texts of a program

A program takes the finished wordings of the documents that are added to it. Those of a document replace all
that earlier documents of its language gave, so that documents add up only if the last one has what they have.
-/

namespace QmlScript.Registry

open QmlScript.Localization List Table

variable {catalog : Catalog} {source context : String}

abbrev Texts := Table String (Table String (Option String))

/-- The text for a source in a context; the empty one where none is given. -/
def textAt? (texts : Texts) (source context : String) : Option String :=
  ((texts.get? source).bind (·.get? context)).map (·.getD "")

/-- A message of a context is ready and stands for a source in a context. -/
def Fits (source context : String) (p : String × Message) : Prop :=
  p.2.wording.status = some stale ∧ p.2.source = source ∧ p.1 = context

def takeText (texts : Texts) (p : String × Message) : Texts :=
  if p.2.wording.status = some stale then
    texts.insert p.2.source (((texts.get? p.2.source).getD {}).insert p.1 p.2.wording.text)
  else texts

def messagesOf (catalog : Catalog) : List (String × Message) :=
  catalog.contexts.values.flatMap fun c => c.messages.values.map fun m => (c.name, m)

theorem readyTexts_eq (catalog : Catalog) : readyTexts catalog = (messagesOf catalog).foldl takeText {} := by
  simp only [readyTexts, messagesOf, foldl_flatMap, foldl_map]
  rfl

theorem textAt?_takeText_of_not_fits {texts : Texts} {p : String × Message} (h : ¬ Fits source context p) :
    textAt? (takeText texts p) source context = textAt? texts source context := by
  unfold takeText
  split
  · next hstale =>
    by_cases hsource : p.2.source = source
    · have hcontext : p.1 ≠ context := fun hcontext => h ⟨hstale, hsource, hcontext⟩
      subst hsource
      cases htexts : texts.get? p.2.source with
      | none =>
        have hempty : ({} : Table String (Option String)).get? context = none := rfl
        simp [textAt?, htexts, get?_insert_of_ne _ _ hcontext, hempty]
      | some inner => simp [textAt?, htexts, get?_insert_of_ne _ _ hcontext]
    · simp [textAt?, get?_insert_of_ne _ _ hsource]
  · rfl

theorem textAt?_foldl_takeText (ps : List (String × Message)) (texts : Texts) (source context : String) :
    (∃ p ∈ ps, Fits source context p ∧
      textAt? (ps.foldl takeText texts) source context = some (p.2.wording.text.getD "")) ∨
      (∀ p ∈ ps, ¬ Fits source context p) ∧
        textAt? (ps.foldl takeText texts) source context = textAt? texts source context := by
  induction ps generalizing texts with
  | nil => exact .inr ⟨by simp, rfl⟩
  | cons p ps ih =>
    rcases ih (takeText texts p) with ⟨q, hq, hfits, htext⟩ | ⟨hnone, htext⟩
    · exact .inl ⟨q, mem_cons_of_mem _ hq, hfits, htext⟩
    · by_cases hfits : Fits source context p
      · obtain ⟨hstale, rfl, rfl⟩ := id hfits
        exact .inl ⟨p, mem_cons_self, hfits, htext.trans (by simp [takeText, hstale, textAt?])⟩
      · exact .inr ⟨forall_mem_cons.mpr ⟨hfits, hnone⟩, htext.trans (textAt?_takeText_of_not_fits hfits)⟩

theorem mem_messagesOf (h : catalog.IsKeyed) {m : Message} :
    (context, m) ∈ messagesOf catalog ↔ catalog.message? context m.source = some m := by
  simp only [messagesOf, mem_flatMap, mem_map, Prod.mk.injEq, Catalog.message?, Option.bind_eq_some_iff,
    mem_values_iff h.keys]
  constructor
  · rintro ⟨c, ⟨name, hc⟩, m, hm, rfl, rfl⟩
    obtain ⟨rfl, hkeyed⟩ := h.names name c hc
    obtain ⟨source, hm⟩ := (mem_values_iff hkeyed.keys).mp hm
    obtain rfl := hkeyed.sources source m hm
    exact ⟨c, hc, hm⟩
  · rintro ⟨c, hc, hm⟩
    obtain ⟨rfl, hkeyed⟩ := h.names context c hc
    exact ⟨c, ⟨_, hc⟩, m, (mem_values_iff hkeyed.keys).mpr ⟨_, hm⟩, rfl, rfl⟩

theorem textAt?_readyTexts (h : catalog.IsKeyed) {text : String} :
    textAt? (readyTexts catalog) source context = some text ↔ ∃ m, catalog.message? context source = some m ∧
      m.wording.status = some stale ∧ m.wording.text.getD "" = text := by
  have hfits : ∀ p ∈ messagesOf catalog, Fits source context p → catalog.message? context source = some p.2 := by
    rintro ⟨name, m⟩ hmem ⟨-, rfl, rfl⟩
    exact (mem_messagesOf h).mp hmem
  rw [readyTexts_eq]
  rcases textAt?_foldl_takeText (messagesOf catalog) {} source context with ⟨p, hp, hfit, htext⟩ | ⟨hnone, htext⟩
  · have hmessage := hfits p hp hfit
    rw [htext]
    constructor
    · rintro ⟨⟩
      exact ⟨p.2, hmessage, hfit.1, rfl⟩
    · rintro ⟨m, hm, -, rfl⟩
      rw [hmessage] at hm
      rw [Option.some.inj hm]
  · rw [htext]
    refine iff_of_false (by simp [textAt?, Table.get?, Table.lookup]) ?_
    rintro ⟨m, hm, hstale, -⟩
    obtain rfl := h.source hm
    exact hnone _ ((mem_messagesOf h).mpr hm) ⟨hstale, rfl, rfl⟩

theorem readyTexts_isEmpty : (readyTexts catalog).entries.isEmpty = true ↔
    ∀ source context, textAt? (readyTexts catalog) source context = none := by
  constructor
  · intro h source context
    simp [textAt?, Table.get?, List.isEmpty_iff.mp h, Table.lookup]
  · intro h
    rw [readyTexts_eq] at h ⊢
    have hnone : ∀ p ∈ messagesOf catalog, p.2.wording.status ≠ some stale := by
      intro p hp hstale
      rcases textAt?_foldl_takeText (messagesOf catalog) {} p.2.source p.1 with ⟨q, -, -, htext⟩ | ⟨hfits, -⟩
      · rw [h] at htext
        cases htext
      · exact hfits p hp ⟨hstale, rfl, rfl⟩
    have hfold : ∀ ps : List (String × Message), (∀ p ∈ ps, p.2.wording.status ≠ some stale) →
        ps.foldl takeText {} = {} := by
      intro ps hps
      induction ps with
      | nil => rfl
      | cons p ps ih =>
        obtain ⟨hp, hps⟩ := forall_mem_cons.mp hps
        rw [foldl_cons, takeText, if_neg hp, ih hps]
    rw [hfold _ hnone]
    rfl

def text? (r : Registry) (language source context : String) : Option String :=
  (r.l10n.get? language).bind fun texts => textAt? texts source context

/-- A document of localized texts, with the catalog that it is loaded as. -/
structure TextFile where
  path : String
  document : Markup.Element
  catalog : Catalog
  loads : Catalog.ofElement path document = .ok catalog
  orderly : IsOrderly document

namespace TextFile

def Finished (f : TextFile) (source context text : String) : Prop :=
  ∃ entry ∈ entries f.document, entry.source = source ∧ entry.context = context ∧ entry.status = none ∧
    entry.text = text

def speaks (language : String) (f : TextFile) : Bool :=
  f.catalog.language = some language && !(readyTexts f.catalog).entries.isEmpty

theorem finished_iff (f : TextFile) (source context text : String) :
    f.Finished source context text ↔ textAt? (readyTexts f.catalog) source context = some text := by
  rw [textAt?_readyTexts (Catalog.isKeyed_of_ofElement f.loads)]
  constructor
  · rintro ⟨entry, hentry, rfl, rfl, hstatus, rfl⟩
    obtain ⟨m, hm, hholds⟩ := exists_message_of_entry f.loads f.orderly hentry
    exact ⟨m, hm, by rw [hholds.status, hstatus]; rfl, hholds.text⟩
  · rintro ⟨m, hm, hstale, rfl⟩
    obtain ⟨entry, hentry, hkey⟩ := exists_entry_of_message f.loads f.orderly hm
    obtain ⟨rfl, rfl⟩ := Prod.mk.inj hkey
    obtain ⟨m', hm', hholds⟩ := exists_message_of_entry f.loads f.orderly hentry
    obtain rfl := Option.some.inj (hm.symm.trans hm')
    refine ⟨entry, hentry, rfl, rfl, ?_, hholds.text.symm⟩
    have hnot : entry.status ≠ some stale := by
      obtain ⟨c, hc, e, he, rfl⟩ := mem_entries.mp hentry
      obtain ⟨t, ht, hne⟩ := f.orderly.wordings c hc e he
      simpa [Entry.ofElement, ht] using hne
    rw [hholds.status] at hstale
    cases hcase : entry.status with
    | none => rfl
    | some status => simp_all

theorem speaks_iff (f : TextFile) (language : String) : f.speaks language = true ↔
    f.catalog.language = some language ∧ ∃ source context text, f.Finished source context text := by
  have hempty := @readyTexts_isEmpty f.catalog
  simp only [speaks, Bool.and_eq_true, decide_eq_true_eq, Bool.not_eq_true', f.finished_iff]
  refine and_congr_right fun _ => ?_
  rw [← Bool.not_eq_true, hempty]
  simp only [not_forall, ← ne_eq, Option.ne_none_iff_exists']

end TextFile

/-- The program with the texts of documents, one after the other. -/
def addTexts (r : Registry) (files : List TextFile) : Registry :=
  files.foldl (fun r f => (addCatalog f.catalog r).1) r

theorem text?_addCatalog (f : TextFile) (r : Registry) (language source context : String) :
    text? (addCatalog f.catalog r).1 language source context =
      if f.speaks language then textAt? (readyTexts f.catalog) source context
      else text? r language source context := by
  unfold addCatalog TextFile.speaks
  cases hlanguage : f.catalog.language with
  | none => rfl
  | some other =>
    dsimp only
    by_cases hempty : (readyTexts f.catalog).entries.isEmpty = true
    · simp [hempty]
    · rw [if_neg hempty]
      by_cases hsame : other = language
      · subst hsame
        simp [hempty, text?]
      · simp [text?, hsame, get?_insert_of_ne _ _ hsame]

def lastOf? (files : List TextFile) (language : String) : Option TextFile :=
  files.reverse.find? (·.speaks language)

theorem text?_addTexts (r : Registry) (files : List TextFile) (language source context : String) :
    text? (addTexts r files) language source context =
      match lastOf? files language with
      | some f => textAt? (readyTexts f.catalog) source context
      | none => text? r language source context := by
  induction files generalizing r with
  | nil => rfl
  | cons f files ih =>
    rw [addTexts, foldl_cons, ← addTexts, ih, lastOf?, lastOf?, reverse_cons, find?_append]
    cases files.reverse.find? (·.speaks language) with
    | some g => rfl
    | none =>
      rw [text?_addCatalog]
      cases hspeaks : f.speaks language <;> simp [hspeaks]

/-- The text is the last finished one in documents of a language. -/
def IsLatest (files : List TextFile) (language source context text : String) : Prop :=
  ∃ before f after, files = before ++ f :: after ∧ f.catalog.language = some language ∧
    f.Finished source context text ∧
    ∀ g ∈ after, g.catalog.language = some language → ∀ text, ¬ g.Finished source context text

theorem exists_isLatest {files : List TextFile} {f : TextFile} {language source context text : String}
    (hf : f ∈ files) (hlanguage : f.catalog.language = some language) (h : f.Finished source context text) :
    ∃ text, IsLatest files language source context text := by
  induction files generalizing f text with
  | nil => cases hf
  | cons g files ih =>
    by_cases hrest : ∃ f ∈ files, f.catalog.language = some language ∧ ∃ text, f.Finished source context text
    · obtain ⟨f, hf, hlanguage, text, h⟩ := hrest
      obtain ⟨text, before, f, after, rfl, hlast⟩ := ih hf hlanguage h
      exact ⟨text, g :: before, f, after, rfl, hlast⟩
    · rcases mem_cons.mp hf with rfl | hf
      · exact ⟨text, [], f, files, rfl, hlanguage, h, fun g hg hlang text hfinished =>
          hrest ⟨g, hg, hlang, text, hfinished⟩⟩
      · exact absurd ⟨f, hf, hlanguage, text, h⟩ hrest

/-- A program has the latest finished wordings of documents, and no other texts. -/
def AddsUp (r : Registry) (files : List TextFile) : Prop := ∀ language source context text,
  text? (addTexts r files) language source context = some text ↔ IsLatest files language source context text

/-- Documents that are added one after the other leave the finished wordings of the last document of each language
that has any. So they add up exactly if that document has a wording for every source and context that an earlier
one has. -/
theorem texts_accumulate_iff (files : List TextFile) (r : Registry) (hr : r.l10n.entries = []) :
    (∀ language source context text, text? (addTexts r files) language source context = some text ↔
      ∃ f, lastOf? files language = some f ∧ f.Finished source context text) ∧
    (AddsUp r files ↔ ∀ f ∈ files, ∀ language source context text, f.catalog.language = some language →
      f.Finished source context text → ∃ g text, lastOf? files language = some g ∧ g.Finished source context text) := by
  have hlast : ∀ language source context text, text? (addTexts r files) language source context = some text ↔
      ∃ f, lastOf? files language = some f ∧ f.Finished source context text := by
    intro language source context text
    have hnone : text? r language source context = none := by simp [text?, Table.get?, hr, Table.lookup]
    rw [text?_addTexts]
    cases lastOf? files language with
    | none => simp [hnone]
    | some f => simp [f.finished_iff]
  refine ⟨hlast, ?_, ?_⟩
  · intro h f hf language source context text hlanguage hfinished
    obtain ⟨text, hlatest⟩ := exists_isLatest hf hlanguage hfinished
    obtain ⟨g, hg, hfinished⟩ := (hlast language source context text).mp ((h _ _ _ _).mpr hlatest)
    exact ⟨g, text, hg, hfinished⟩
  · intro h language source context text
    rw [hlast]
    constructor
    · rintro ⟨f, hf, hfinished⟩
      obtain ⟨hspeaks, after, before, hfiles, hsilent⟩ := find?_eq_some_iff_append.mp hf
      refine ⟨before.reverse, f, after.reverse, ?_, ((f.speaks_iff language).mp hspeaks).1, hfinished, ?_⟩
      · rw [← reverse_reverse files, hfiles]
        simp
      · intro g hg hlanguage text hfinished
        have hspeaks := (g.speaks_iff language).mpr ⟨hlanguage, source, context, text, hfinished⟩
        simpa [hspeaks] using hsilent g (mem_reverse.mp hg)
    · rintro ⟨before, f, after, rfl, hlanguage, hfinished, hafter⟩
      have hspeaks := (f.speaks_iff language).mpr ⟨hlanguage, source, context, text, hfinished⟩
      have hlastOf : lastOf? (before ++ f :: after) language =
          (after.reverse.find? (·.speaks language)).or (some f) := by
        simp [lastOf?, find?_append, hspeaks]
      -- the last document has the wording too, so it does not come behind this one
      obtain ⟨g, text', hg, hfinished'⟩ := h f (by simp) language source context text hlanguage hfinished
      rw [hlastOf] at hg ⊢
      cases hbehind : after.reverse.find? (·.speaks language) with
      | none => exact ⟨f, rfl, hfinished⟩
      | some g' =>
        obtain rfl : g' = g := by simpa [hbehind] using hg
        have hmem := mem_reverse.mp (mem_of_find?_eq_some hbehind)
        have hlang := ((g'.speaks_iff language).mp (find?_some hbehind)).1
        exact absurd hfinished' (hafter g' hmem hlang text')

def greeting (source text : String) : TextFile where
  path := "a.ts"
  document := { name := "TS", attributes := [("language", "de")], children := [
    { name := "context", children := [{ name := "name", text := some "A" }, { name := "message", children := [
      { name := "source", text := some source }, { name := "translation", text := some text }] }] }] }
  catalog := { path := "a.ts", language := some "de", contexts := ⟨[("A", { name := "A", messages :=
    ⟨[(source, { source, wording := ⟨some stale, some text⟩ })]⟩ })]⟩ }
  loads := by rfl
  orderly := ⟨nodup_singleton _, by simp [named], by simp [named, Markup.Element.attribute?]⟩

theorem texts_accumulate_iff_greetings :
    let files := [greeting "Hi" "Hallo", greeting "Hi" "Servus"]
    AddsUp { ns := "qml", buildId := "1" } files ∧
      text? (addTexts { ns := "qml", buildId := "1" } files) "de" "Hi" "A" = some "Servus" := by
  intro files
  obtain ⟨htexts, hiff⟩ := texts_accumulate_iff files { ns := "qml", buildId := "1" } rfl
  have hlast : lastOf? files "de" = some (greeting "Hi" "Servus") := rfl
  have hfinished : (greeting "Hi" "Servus").Finished "Hi" "A" "Servus" := ⟨_, mem_singleton_self _, rfl, rfl, rfl, rfl⟩
  refine ⟨hiff.mpr ?_, (htexts _ _ _ _).mpr ⟨_, hlast, hfinished⟩⟩
  rintro f hf language source context text hlanguage ⟨entry, hentry, rfl, rfl, -, -⟩
  have hgreeting : f = greeting "Hi" "Hallo" ∨ f = greeting "Hi" "Servus" := by simpa [files] using hf
  rcases hgreeting with rfl | rfl
  all_goals
    obtain rfl := Option.some.inj hlanguage
    obtain rfl := mem_singleton.mp hentry
    exact ⟨_, _, hlast, hfinished⟩

/-- The wording of the first document is lost. -/
theorem texts_lost : text? (addTexts { ns := "qml", buildId := "1" }
    [greeting "Hi" "Hallo", greeting "Bye" "Servus"]) "de" "Hi" "A" = none := by
  rfl

end QmlScript.Registry
