import QmlScript.Proofs.Files
import QmlScript.Proofs.Localization.Document

/-!
# Catalogs that are brought up to date

A catalog is loaded, the sources are scanned and the catalog is saved. `Updates` compares the document with
the one that is saved, given all that the sources ask for: only the status of a wording may change.
-/

namespace QmlScript.Localization

open Catalog Option

open Markup (Element)

variable {catalog : Catalog} {path : String} {document : Element} {tree : FileTree}

/-- All requests of source files, as contexts and sources of messages. -/
def askedIn (texts : List SourceText) : List (String × String) := (texts.flatMap SourceText.asks).map Ask.key

/-- The entry after a scan: a wording asked for is in use, and one without a status that is not is out of use. -/
def Entry.updated (entry : Entry) (asked : Bool) : Entry :=
  { entry with status :=
      if asked then if entry.status = none ∨ entry.status = some obsolete then none else entry.status
      else if entry.status = none then some obsolete else entry.status }

structure Updates (old new : Element) (asked : List (String × String)) : Prop where
  nodup : ((entries new).map Entry.key).Nodup
  keys : ∀ key, key ∈ (entries new).map Entry.key ↔ key ∈ (entries old).map Entry.key ∨ key ∈ asked
  kept : ∀ entry ∈ entries old, entry.updated (decide (entry.key ∈ asked)) ∈ entries new
  added : ∀ entry ∈ entries new, entry.key ∉ (entries old).map Entry.key →
    entry.status = some unfinished ∧ entry.text = ""
  attributes : ∀ name ∈ ["language", "version"],
    new.attribute? name = (old.attribute? name).filter (· ≠ "")

theorem Wording.text_use (w : Wording) : w.use.text = w.text := by
  unfold Wording.use
  split <;> rfl

theorem Wording.status_use (w : Wording) :
    w.use.status = if w.status = some obsolete ∨ w.status = some stale then none else w.status := by
  unfold Wording.use
  split <;> simp_all

theorem Message.Holds.entry_eq {m : Message} {entry : Entry} (h : m.Holds entry) (hstale : entry.status ≠ some stale)
    (asked : Bool) : (if asked then m.use else m).entry entry.context = entry.updated asked := by
  have hkept : (if asked then m.use else m).source = entry.source ∧
      ((if asked then m.use else m).location.map fun l => (some l.fileName, some l.line.text)) = entry.location ∧
      (if asked then m.use else m).wording.text.getD "" = entry.text := by
    rw [← h.source, ← h.location, ← h.text]
    cases asked with
    | false => exact ⟨rfl, rfl, rfl⟩
    | true => exact ⟨rfl, rfl, congrArg (·.getD "") m.wording.text_use⟩
  obtain ⟨hsource, hlocation, htext⟩ := hkept
  rw [Message.entry, Entry.updated, hsource, hlocation, htext]
  refine congrArg (Entry.mk _ _ _ · _) ?_
  -- only the status depends on whether the message is asked for
  have hne : obsolete ≠ stale := by decide
  cases asked with
  | false =>
    simp only [Bool.false_eq_true, if_false, h.status]
    cases hold : entry.status with
    | none => rfl
    | some status => simp_all
  | true =>
    simp only [if_true, Message.use, Wording.status_use, h.status]
    cases hold : entry.status with
    | none => simp
    | some status =>
      by_cases hobsolete : status = obsolete
      · simp [hobsolete]
      · simp_all

theorem Catalog.IsKeyed.mem_keys (h : catalog.IsKeyed) {context source : String} :
    (context, source) ∈ (entries catalog.toElement).map Entry.key ↔ (catalog.message? context source).isSome := by
  rw [isSome_iff_exists, List.mem_map]
  constructor
  · rintro ⟨entry, hentry, hkey⟩
    obtain ⟨context, source, m, hm, rfl⟩ := (mem_entries_toElement h).mp hentry
    obtain ⟨rfl, rfl⟩ := Prod.mk.inj hkey
    refine ⟨m, ?_⟩
    rw [show (m.entry context).source = source from h.source hm]
    exact hm
  · rintro ⟨m, hm⟩
    exact ⟨_, (mem_entries_toElement h).mpr ⟨context, source, m, hm, rfl⟩, congrArg _ (h.source hm)⟩

theorem mem_keys_of_load (hload : ofElement path document = .ok catalog) (h : IsOrderly document)
    {context source : String} :
    (context, source) ∈ (entries document).map Entry.key ↔ (catalog.message? context source).isSome := by
  rw [isSome_iff_exists, List.mem_map]
  constructor
  · rintro ⟨entry, hentry, hkey⟩
    obtain ⟨m, hm, -⟩ := exists_message_of_entry hload h hentry
    obtain ⟨rfl, rfl⟩ := Prod.mk.inj hkey
    exact ⟨m, hm⟩
  · rintro ⟨m, hm⟩
    exact exists_entry_of_message hload h hm

theorem attributes_toElement (catalog : Catalog) :
    catalog.toElement.attributes =
      ((catalog.version.filter (· ≠ "")).map fun v => ("version", v)).toList ++
        ((catalog.language.filter (· ≠ "")).map fun l => ("language", l)).toList := by
  unfold toElement
  dsimp only
  congr 1
  · cases catalog.version with
    | none => rfl
    | some version => by_cases hempty : version = "" <;> simp [hempty, Option.filter]
  · cases catalog.language with
    | none => rfl
    | some language => by_cases hempty : language = "" <;> simp [hempty, Option.filter]

theorem attribute?_toElement (catalog : Catalog) :
    catalog.toElement.attribute? "language" = catalog.language.filter (· ≠ "") ∧
      catalog.toElement.attribute? "version" = catalog.version.filter (· ≠ "") := by
  rw [Element.attribute?, Element.attribute?, attributes_toElement]
  cases catalog.version.filter (· ≠ "") <;> cases catalog.language.filter (· ≠ "") <;> exact ⟨rfl, rfl⟩

theorem foldl_ask_fields (asks : List Ask) (catalog : Catalog) :
    (asks.foldl ask catalog).path = catalog.path ∧
      (asks.foldl ask catalog).language = catalog.language ∧
      (asks.foldl ask catalog).version = catalog.version := by
  induction asks generalizing catalog with
  | nil => exact ⟨rfl, rfl, rfl⟩
  | cons ask asks ih => exact ih (catalog.ask ask)

theorem IsOrderly.status_ne (h : IsOrderly document) {entry : Entry} (hentry : entry ∈ entries document) :
    entry.status ≠ some stale := by
  obtain ⟨c, hc, e, he, rfl⟩ := mem_entries.mp hentry
  obtain ⟨t, ht, hstatus⟩ := h.wordings c hc e he
  rw [Entry.ofElement, ht]
  exact hstatus

theorem updates_foldl_ask (hload : ofElement path document = .ok catalog) (h : IsOrderly document) (asks : List Ask) :
    Updates document (asks.foldl ask catalog).toElement (asks.map Ask.key) := by
  have hkeyed := (isKeyed_of_ofElement hload).foldl_ask asks
  refine ⟨nodup_keys_toElement hkeyed, ?_, ?_, ?_, ?_⟩
  · rintro ⟨context, source⟩
    rw [hkeyed.mem_keys, mem_keys_of_load hload h, message?_foldl_ask, isSome_or, isSome_map, Bool.or_eq_true,
      find?_isFor_isSome, or_comm]
  · intro entry hentry
    obtain ⟨m, hm, hholds⟩ := exists_message_of_entry hload h hentry
    rw [mem_entries_toElement hkeyed]
    refine ⟨entry.context, entry.source, _, message?_foldl_ask_of_some hm asks, ?_⟩
    have hentry := hholds.entry_eq (h.status_ne hentry) (decide (entry.key ∈ asks.map Ask.key))
    simp only [decide_eq_true_eq] at hentry
    exact hentry
  · intro entry hentry hnew
    obtain ⟨context, source, m, hm, rfl⟩ := (mem_entries_toElement hkeyed).mp hentry
    have hnone : catalog.message? context source = none := by
      rw [← not_isSome_iff_eq_none, ← mem_keys_of_load hload h, ← hkeyed.source hm]
      exact hnew
    rw [message?_foldl_ask_of_none hnone] at hm
    obtain ⟨ask, -, rfl⟩ := map_eq_some_iff.mp hm
    exact ⟨rfl, rfl⟩
  · obtain ⟨contexts, -, hcatalog⟩ := Catalog.ofElement_eq_ok.mp hload
    obtain ⟨-, hlanguage, hversion⟩ := foldl_ask_fields asks catalog
    intro name hname
    rcases List.mem_pair.mp hname with rfl | rfl
    · rw [(attribute?_toElement _).1, hlanguage, hcatalog]
    · rw [(attribute?_toElement _).2, hversion, hcatalog]

theorem load_eq {text : String} (htext : tree.readExact path = .ok text)
    (hdocument : Markup.read text = .ok document) (language : Option String) :
    load tree path language = ofElement path document := by
  rw [load, if_pos (FileTree.has_of_readExact htext), htext]
  simp only [Except.mapError, bind, Except.bind, hdocument]

theorem update_eq {language : Option String} (hload : load tree path language = .ok catalog)
    {directories : List String} {texts : List SourceText} (htexts : sourceTexts tree directories = .ok texts) :
    update tree path language directories = ((texts.flatMap SourceText.asks).foldl ask catalog).save tree := by
  rw [update, hload]
  simp only [bind, Except.bind, scan_eq, htexts]
  rfl

theorem save_eq {text : String} (htext : tree.readExact catalog.path = .ok text) :
    match Markup.write? catalog.toElement with
    | none => save tree catalog = .error .unwritable
    | some saved => ∃ new, save tree catalog = .ok new ∧ new.readExact catalog.path = .ok saved := by
  unfold save document
  cases Markup.write? catalog.toElement with
  | none => rfl
  | some saved =>
    obtain ⟨new, hwrite⟩ := FileTree.exists_write htext saved
    refine ⟨new, ?_, (FileTree.readExact_write hwrite).1⟩
    simp only [bind, Except.bind, hwrite, Except.mapError]

/-- Bringing a catalog up to date loses nothing and marks exactly what changed. The file then has the text of the
document that is up to date; only if a character cannot be written, nothing is saved. -/
theorem exists_updates {tree : FileTree} (htree : tree.IsNamed) {path text : String}
    (htext : tree.readExact path = .ok text) {document : Element} (hdocument : Markup.read text = .ok document)
    (horderly : IsOrderly document) {language : Option String} {catalog : Catalog}
    (hload : load tree path language = .ok catalog) (directories : List String) :
    ∃ texts updated, sourceTexts tree directories = .ok texts ∧ Updates document updated (askedIn texts) ∧
      match Markup.write? updated with
      | none => update tree path language directories = .error .unwritable
      | some saved => ∃ new, update tree path language directories = .ok new ∧ new.readExact path = .ok saved := by
  obtain ⟨texts, htexts⟩ := exists_sourceTexts htree directories
  rw [update_eq hload htexts]
  rw [load_eq htext hdocument] at hload
  obtain ⟨contexts, -, hcatalog⟩ := Catalog.ofElement_eq_ok.mp hload
  have hpath : ((texts.flatMap SourceText.asks).foldl ask catalog).path = path := by
    rw [(foldl_ask_fields _ _).1, hcatalog]
  refine ⟨texts, _, htexts, updates_foldl_ask hload horderly _, ?_⟩
  have hsave := save_eq (hpath.symm ▸ htext)
  rwa [hpath] at hsave

/-- A document with a wording in use and one that is out of use. -/
def sampleDocument : String :=
  "<TS language='de'><context><name>A</name>" ++
  "<message><source>Bye</source><translation>Servus</translation></message>" ++
  "<message><source>Yes</source><translation type='obsoleted'>Ja</translation></message></context></TS>"

/-- A document, and a source that asks for one of its texts and another. -/
def sample : FileTree :=
  .dir [("src", .dir [("A.qml", .file "x: qsTr('Yes') + qsTr('No')")]), ("x.ts", .file sampleDocument)]

/-- A catalog with one context. -/
def sampleCatalog (messages : List Message) : Catalog :=
  { path := "x.ts", language := some "de",
    contexts := ⟨[("A", { name := "A", messages := ⟨messages.map fun m => (m.source, m)⟩ })]⟩ }

def loadedMessages : List Message :=
  [{ source := "Bye", wording := ⟨some stale, some "Servus"⟩ },
    { source := "Yes", wording := ⟨some obsolete, some "Ja"⟩ }]

def scannedMessages : List Message :=
  [{ source := "Bye", wording := ⟨some stale, some "Servus"⟩ }, { source := "Yes", wording := ⟨none, some "Ja"⟩ },
    { source := "No", location := some ⟨"src/A.qml", .counted 1⟩ }]

def savedDocument : String :=
  "<?xml version=\"1.0\" ?>\n<TS language=\"de\">\n  <context>\n    <name>A</name>\n    <message>\n" ++
  "      <source>Bye</source>\n      <translation type=\"obsoleted\">Servus</translation>\n    </message>\n" ++
  "    <message>\n      <location filename=\"src/A.qml\" line=\"1\"/>\n      <source>No</source>\n" ++
  "      <translation type=\"unfinished\"/>\n    </message>\n    <message>\n      <source>Yes</source>\n" ++
  "      <translation>Ja</translation>\n    </message>\n  </context>\n</TS>\n"

theorem toList_appends (a b c : String) : (a ++ b ++ c).toList = a.toList ++ b.toList ++ c.toList := by
  simp only [String.toList_append]

theorem read_sample :
    ((Markup.read sampleDocument).toOption.any fun document =>
      decide (IsOrderly document ∧ (ofElement "x.ts" document).toOption = some (sampleCatalog loadedMessages))) =
        true := by
  -- The kernel needs time quadratic in the length of a text for its characters: they are listed first.
  have hchars : sampleDocument.toList = _ := toList_appends _ _ _
  simp only [String.reduceToList] at hchars
  unfold Markup.read
  generalize sampleDocument.toList = chars at hchars ⊢
  subst hchars
  decide +kernel

theorem scan_sample :
    (sourceTexts sample ["src"]).toOption.map (fun texts =>
      (askedIn texts, (texts.flatMap SourceText.asks).foldl ask (sampleCatalog loadedMessages))) =
      some ([("A", "Yes"), ("A", "No")], sampleCatalog scannedMessages) := by decide +kernel

theorem write?_sample : Markup.write? (sampleCatalog scannedMessages).toElement = some savedDocument := by
  have hlt : textLt "Yes" "Bye" = false ∧ textLt "No" "Bye" = false ∧ textLt "No" "Yes" = true := by decide +kernel
  have hsort : sortBy (fun a b : Message => textLt a.source b.source) scannedMessages =
      scannedMessages.take 1 ++ (scannedMessages.drop 1).reverse := by
    simp [sortBy, scannedMessages, List.mergeSort, hlt]
  have hcontext : (sampleCatalog scannedMessages).toElement = ⟨"TS", [("language", "de")], none, [⟨"context", [], none,
      textElement "name" "A" ::
        (sortBy (fun a b => textLt a.source b.source) scannedMessages).map Message.toElement⟩]⟩ := by
    simp only [Catalog.toElement, sampleCatalog, sortBy, Table.values, List.map, List.mergeSort_singleton]
    rfl
  rw [hcontext, hsort]
  decide +kernel

/-- A wording that is not asked for, one that comes into use again and one that is new. -/
theorem exists_updates_sample :
    sample.IsNamed ∧ ∃ document updated tree, Markup.read sampleDocument = .ok document ∧ IsOrderly document ∧
      Updates document updated [("A", "Yes"), ("A", "No")] ∧ Markup.write? updated = some savedDocument ∧
      update sample "x.ts" none ["src"] = .ok tree ∧ tree.readExact "x.ts" = .ok savedDocument := by
  obtain ⟨document, hread, hsample⟩ := (Option.any_eq_true _ _).mp read_sample
  obtain ⟨horderly, hcatalog⟩ := of_decide_eq_true hsample
  have hdocument := eq_ok_of_toOption hread
  have htext : sample.readExact "x.ts" = .ok sampleDocument := rfl
  have hload := (load_eq htext hdocument none).trans (eq_ok_of_toOption hcatalog)
  obtain ⟨texts, updated, htexts, hupdates, hupdate⟩ :=
    exists_updates (by decide) htext hdocument horderly hload ["src"]
  have hscan := scan_sample
  rw [htexts] at hscan
  obtain ⟨hasked, hscanned⟩ := Prod.mk.inj (Option.some.inj hscan)
  have hsave : match Markup.write? (sampleCatalog scannedMessages).toElement with
    | none => save sample (sampleCatalog scannedMessages) = .error .unwritable
    | some saved => ∃ new, save sample (sampleCatalog scannedMessages) = .ok new ∧ new.readExact "x.ts" = .ok saved :=
    save_eq htext
  rw [write?_sample, ← hscanned, ← update_eq hload htexts] at hsave
  obtain ⟨tree, hresult, hfile⟩ := hsave
  rw [hasked] at hupdates
  cases hwrite : Markup.write? updated with
  | none =>
    rw [hwrite, hresult] at hupdate
    cases hupdate
  | some saved =>
    rw [hwrite] at hupdate
    obtain ⟨tree', hresult', hfile'⟩ := hupdate
    obtain rfl := Except.ok.inj (hresult.symm.trans hresult')
    rw [Except.ok.inj (hfile'.symm.trans hfile)] at hwrite
    exact ⟨by decide, document, updated, tree, hdocument, horderly, hupdates, hwrite, hresult, hfile⟩

end QmlScript.Localization
