import QmlScript.Proofs.Localization.Catalog

/-!
# What a document says about messages

A document is told by its entries, one for each element of a message; the last of several with one meaning
counts. A catalog that is loaded has a message for each entry, and the document that is written has an entry
for each message.
-/

namespace QmlScript.Localization

open List Catalog Table

open Markup (Element)

variable {α : Type} {e document : Element} {m : Message} {c : Context} {path : String} {catalog : Catalog}

/-! ## Elements of a name -/

def named (name : String) (elements : List Element) : List Element := elements.filter (·.name = name)

def lastText? (name : String) (elements : List Element) : Option String :=
  (named name elements).getLast?.bind (·.text)

theorem named_cons (name : String) (e : Element) (elements : List Element) :
    named name (e :: elements) = if e.name = name then e :: named name elements else named name elements := by
  simp [named, filter_cons]

theorem foldl_last {β : Type} (f : α → β) (elements : List α) (start : β) :
    elements.foldl (fun _ e => f e) start = (elements.getLast?.map f).getD start := by
  induction elements generalizing start with
  | nil => rfl
  | cons e elements ih =>
    rw [foldl_cons, ih, getLast?_cons]
    cases elements.getLast? <;> rfl

theorem foldl_text (name : String) (elements : List Element) :
    (named name elements).foldl (fun _ e => e.text) none = lastText? name elements := by
  rw [foldl_last, lastText?]
  cases (named name elements).getLast? <;> rfl

theorem foldl_some (values : List α) : values.foldl (fun _ v => some v) none = values.getLast? := by
  rw [foldl_last]
  cases values.getLast? <;> rfl

/-! ## Values by their keys -/

def tabled {α : Type} (key : α → String) (values : List α) : Table String α :=
  Table.ofList (values.map fun value => (key value, value))

theorem foldl_insert_eq_tabled (key : α → String) (values : List α) :
    values.foldl (fun t value => t.insert (key value) value) Table.empty = tabled key values := by
  rw [tabled, Table.ofList, foldl_map]

theorem nodup_keys_tabled (key : α → String) (values : List α) : (tabled key values).keys.Nodup := by
  rw [← foldl_insert_eq_tabled]
  suffices h : ∀ t : Table String α, t.keys.Nodup →
      (values.foldl (fun t value => t.insert (key value) value) t).keys.Nodup from h _ nodup_nil
  induction values with
  | nil => exact fun _ h => h
  | cons value values ih => exact fun t h => ih _ (nodup_keys_insert h _ _)

theorem mem_of_get?_tabled {key : α → String} {values : List α} {k : String} {v : α}
    (h : (tabled key values).get? k = some v) : v ∈ values ∧ key v = k := by
  rw [← foldl_insert_eq_tabled] at h
  suffices hall : ∀ t : Table String α,
      (values.foldl (fun t value => t.insert (key value) value) t).get? k = some v →
        t.get? k = some v ∨ v ∈ values ∧ key v = k from (hall _ h).resolve_left nofun
  clear h
  induction values with
  | nil => exact fun t h => .inl h
  | cons value values ih =>
    intro t h
    rcases ih _ h with h | ⟨hv, hk⟩
    · rw [get?_insert] at h
      split at h
      · rename_i hk
        exact .inr ⟨Option.some.inj h ▸ mem_cons_self .., Option.some.inj h ▸ hk⟩
      · exact .inl h
    · exact .inr ⟨mem_cons_of_mem _ hv, hk⟩

theorem get?_tabled_of_mapM {ε : Type} {key : α → String} {f : Element → Except ε α} {name : Element → String}
    (hkey : ∀ e v, f e = .ok v → key v = name e) {elements : List Element} {values : List α}
    (hvalues : elements.mapM f = .ok values) (hn : (elements.map name).Nodup) (k : String) (v : α) :
    (tabled key values).get? k = some v ↔ ∃ e ∈ elements, name e = k ∧ f e = .ok v := by
  have hkeys : (values.map key).Nodup := (map_eq_of_mapM hvalues hkey).symm ▸ hn
  constructor
  · intro h
    obtain ⟨hv, rfl⟩ := mem_of_get?_tabled h
    obtain ⟨e, he, hload⟩ := exists_mem_of_mem_mapM hvalues hv
    exact ⟨e, he, (hkey e v hload).symm, hload⟩
  · rintro ⟨e, he, rfl, hload⟩
    obtain ⟨v', hv', hload'⟩ := exists_mem_of_mapM hvalues he
    obtain rfl := Except.ok.inj (hload.symm.trans hload')
    rw [← hkey e v hload]
    exact get?_ofList (by rwa [map_map]) (mem_map.mpr ⟨v, hv', rfl⟩)

theorem Location.ofElement_eq_ok {l : Location} :
    Location.ofElement e = .ok l ↔
      ∃ file line, e.attribute? "filename" = some file ∧ e.attribute? "line" = some line ∧ l = ⟨file, .given line⟩ := by
  unfold Location.ofElement
  dsimp only
  cases e.attribute? "filename" with
  | none => exact ⟨nofun, nofun⟩
  | some file =>
    cases e.attribute? "line" with
    | none => exact ⟨nofun, nofun⟩
    | some line =>
      constructor
      · intro h
        exact ⟨file, line, rfl, rfl, (Except.ok.inj h).symm⟩
      · rintro ⟨_, _, hfile, hline, rfl⟩
        cases hfile
        cases hline
        rfl

/-- What is read of a message is what the last element of each name says. -/
theorem foldlM_add (elements : List Element) (m : MessageParts) :
    elements.foldlM MessageParts.add m =
      ((named "location" elements).mapM Location.ofElement).map fun locations =>
        { source := (named "source" elements).foldl (fun _ e => e.text) m.source
          location := locations.foldl (fun _ l => some l) m.location
          wording := (named "translation" elements).foldl (fun _ e => .ofElement e) m.wording } := by
  induction elements generalizing m with
  | nil => rfl
  | cons e elements ih =>
    rw [foldlM_cons, MessageParts.add]
    simp only [named_cons]
    by_cases hsource : e.name = "source"
    · rw [if_pos hsource]
      refine (ih _).trans ?_
      simp [hsource]
    by_cases hlocation : e.name = "location"
    · rw [if_neg hsource, if_pos hlocation]
      simp only [hlocation, if_true, String.reduceEq, if_false, mapM_cons]
      cases Location.ofElement e with
      | error cause => rfl
      | ok location =>
        refine (ih _).trans ?_
        cases (named "location" elements).mapM Location.ofElement <;> rfl
    by_cases htranslation : e.name = "translation"
    · rw [if_neg hsource, if_neg hlocation, if_pos htranslation]
      refine (ih _).trans ?_
      simp [htranslation]
    · rw [if_neg hsource, if_neg hlocation, if_neg htranslation]
      refine (ih _).trans ?_
      simp [hsource, hlocation, htranslation]

/-- Reading elements and then a text that has to be there. -/
theorem map_bind_eq_ok {ε β γ σ : Type} {read : Except ε α} {f : α → σ} {k : σ → Except ε γ} {found : Option β}
    {make : α → β → γ} {c : γ} (lack : ε) (hk : ∀ a, k (f a) = found.elim (.error lack) fun b => .ok (make a b)) :
    (read.map f >>= k) = .ok c ↔ ∃ a b, read = .ok a ∧ found = some b ∧ c = make a b := by
  cases read with
  | error cause => exact iff_of_false nofun nofun
  | ok a =>
    refine (iff_of_eq (congrArg (· = _) (hk a))).trans ?_
    cases found <;> simp [eq_comm]

theorem Message.ofElement_eq_ok :
    Message.ofElement e = .ok m ↔
      ∃ locations source, (named "location" e.children).mapM Location.ofElement = .ok locations ∧
        lastText? "source" e.children = some source ∧
        m = { location := locations.getLast?, source,
              wording := ((named "translation" e.children).getLast?.map .ofElement).getD {} } := by
  unfold Message.ofElement
  rw [foldlM_add]
  simp only [foldl_text, foldl_some]
  simp only [foldl_last]
  exact map_bind_eq_ok .noSource fun _ => by cases lastText? "source" e.children <;> rfl

/-- The name and the messages of a context with those of one more element. -/
def Context.read (parts : Option String × Table String Message) (e : Element) :
    Except CatalogError (Option String × Table String Message) := do
  if e.name = "message" then
    let m ← Message.ofElement e
    return (parts.1, parts.2.insert m.source m)
  else if e.name = "name" then return (e.text, parts.2)
  else return parts

theorem foldlM_read (elements : List Element) (parts : Option String × Table String Message) :
    elements.foldlM Context.read parts =
      ((named "message" elements).mapM Message.ofElement).map fun messages =>
        ((named "name" elements).foldl (fun _ e => e.text) parts.1,
         messages.foldl (fun t m => t.insert m.source m) parts.2) := by
  induction elements generalizing parts with
  | nil => rfl
  | cons e elements ih =>
    rw [foldlM_cons, Context.read]
    simp only [named_cons]
    by_cases hmessage : e.name = "message"
    · simp only [hmessage, if_true, String.reduceEq, if_false, mapM_cons]
      cases Message.ofElement e with
      | error cause => rfl
      | ok m =>
        refine (ih _).trans ?_
        cases (named "message" elements).mapM Message.ofElement <;> rfl
    by_cases hname : e.name = "name"
    · rw [if_neg hmessage, if_neg hmessage, if_pos hname, if_pos hname]
      exact ih _
    · rw [if_neg hmessage, if_neg hmessage, if_neg hname, if_neg hname]
      exact ih _

theorem Context.ofElement_eq_ok :
    Context.ofElement e = .ok c ↔
      ∃ messages name, (named "message" e.children).mapM Message.ofElement = .ok messages ∧
        lastText? "name" e.children = some name ∧ c = { name, messages := tabled (·.source) messages } := by
  unfold Context.ofElement
  change (e.children.foldlM Context.read (none, Table.empty) >>= _) = _ ↔ _
  rw [foldlM_read]
  simp only [foldl_text, foldl_insert_eq_tabled]
  exact map_bind_eq_ok .noName fun _ => by cases lastText? "name" e.children <;> rfl

theorem foldlM_contexts (elements : List Element) (contexts : Table String Context) :
    elements.foldlM (fun contexts child => do
        if child.name = "context" then
          let c ← Context.ofElement child
          return contexts.insert c.name c
        else return contexts) contexts =
      ((named "context" elements).mapM Context.ofElement).map fun cs =>
        cs.foldl (fun t c => t.insert c.name c) contexts := by
  induction elements generalizing contexts with
  | nil => rfl
  | cons e elements ih =>
    rw [foldlM_cons, named_cons]
    by_cases hcontext : e.name = "context"
    · rw [if_pos hcontext, if_pos hcontext, mapM_cons]
      cases Context.ofElement e with
      | error cause => rfl
      | ok c =>
        refine (ih _).trans ?_
        cases (named "context" elements).mapM Context.ofElement <;> rfl
    · rw [if_neg hcontext, if_neg hcontext]
      exact ih _

theorem Catalog.ofElement_eq_ok :
    ofElement path e = .ok catalog ↔
      ∃ contexts, (named "context" e.children).mapM Context.ofElement = .ok contexts ∧
        catalog = { path, language := e.attribute? "language", version := e.attribute? "version",
                    contexts := tabled (·.name) contexts } := by
  unfold ofElement
  rw [foldlM_contexts]
  simp only [foldl_insert_eq_tabled]
  cases (named "context" e.children).mapM Context.ofElement with
  | error cause => exact ⟨nofun, nofun⟩
  | ok contexts =>
    constructor
    · intro h
      exact ⟨contexts, rfl, (Except.ok.inj h).symm⟩
    · rintro ⟨_, hcontexts, rfl⟩
      cases hcontexts
      rfl

structure Entry where
  context : String
  source : String
  location : Option (Option String × Option String)
  status : Option String
  text : String
  deriving DecidableEq

def Entry.key (entry : Entry) : String × String := (entry.context, entry.source)

def sourceOf (e : Element) : String := (lastText? "source" e.children).getD ""

def nameOf (e : Element) : String := (lastText? "name" e.children).getD ""

def Entry.ofElement (context : String) (e : Element) : Entry where
  context
  source := sourceOf e
  location := (named "location" e.children).getLast?.map fun l => (l.attribute? "filename", l.attribute? "line")
  status := (named "translation" e.children).getLast?.bind (·.attribute? "type")
  text := (lastText? "translation" e.children).getD ""

def entries (document : Element) : List Entry :=
  (named "context" document.children).flatMap fun c =>
    (named "message" c.children).map (Entry.ofElement (nameOf c))

/-- Contexts, and the messages of each, have different names, and each message has a wording in use. -/
structure IsOrderly (document : Element) : Prop where
  contexts : ((named "context" document.children).map nameOf).Nodup
  sources : ∀ c ∈ named "context" document.children, ((named "message" c.children).map sourceOf).Nodup
  wordings : ∀ c ∈ named "context" document.children, ∀ e ∈ named "message" c.children,
    ∃ t, (named "translation" e.children).getLast? = some t ∧ t.attribute? "type" ≠ some stale

instance (document : Element) : Decidable (IsOrderly document) :=
  decidable_of_iff (((named "context" document.children).map nameOf).Nodup ∧
      (∀ c ∈ named "context" document.children, ((named "message" c.children).map sourceOf).Nodup) ∧
      ∀ c ∈ named "context" document.children, ∀ e ∈ named "message" c.children,
        ((named "translation" e.children).getLast?.any fun t => t.attribute? "type" ≠ some stale) = true)
    (by
      simp only [Option.any_eq_true, decide_eq_true_eq]
      exact ⟨fun h => ⟨h.1, h.2.1, h.2.2⟩, fun h => ⟨h.contexts, h.sources, h.wordings⟩⟩)

/-! ## Entries that are loaded -/

/-- A message holds an entry; without a status its wording is stale. -/
structure Message.Holds (m : Message) (entry : Entry) : Prop where
  source : m.source = entry.source
  location : (m.location.map fun l => (some l.fileName, some l.line.text)) = entry.location
  status : m.wording.status = some (entry.status.getD stale)
  text : m.wording.text.getD "" = entry.text

theorem Location.attributes_of_ofElement {l : Location} (h : Location.ofElement e = .ok l) :
    (some l.fileName, some l.line.text) = (e.attribute? "filename", e.attribute? "line") := by
  obtain ⟨file, line, hfile, hline, rfl⟩ := Location.ofElement_eq_ok.mp h
  rw [hfile, hline]
  rfl

theorem Message.source_of_ofElement (h : Message.ofElement e = .ok m) : m.source = sourceOf e := by
  obtain ⟨locations, source, -, hsource, rfl⟩ := Message.ofElement_eq_ok.mp h
  rw [sourceOf, hsource]
  rfl

theorem Context.name_of_ofElement (h : Context.ofElement e = .ok c) : c.name = nameOf e := by
  obtain ⟨messages, name, -, hname, rfl⟩ := Context.ofElement_eq_ok.mp h
  rw [nameOf, hname]
  rfl

theorem Message.holds_of_ofElement {t : Element} (h : Message.ofElement e = .ok m)
    (ht : (named "translation" e.children).getLast? = some t) (context : String) :
    m.Holds (.ofElement context e) := by
  refine ⟨source_of_ofElement h, ?_, ?_, ?_⟩
  all_goals obtain ⟨locations, source, hlocations, hsource, rfl⟩ := Message.ofElement_eq_ok.mp h
  · have hkeep := map_eq_of_mapM hlocations fun _ _ => Location.attributes_of_ofElement
    rw [Entry.ofElement, ← getLast?_map, ← getLast?_map, hkeep]
  · rw [Entry.ofElement, ht]
    rfl
  · rw [Entry.ofElement, lastText?, ht]
    rfl

theorem Context.isKeyed_of_ofElement (h : Context.ofElement e = .ok c) : c.IsKeyed := by
  obtain ⟨messages, name, -, -, rfl⟩ := Context.ofElement_eq_ok.mp h
  exact ⟨nodup_keys_tabled _ _, fun source m hm => (mem_of_get?_tabled hm).2⟩

theorem Catalog.isKeyed_of_ofElement (h : ofElement path document = .ok catalog) : catalog.IsKeyed := by
  obtain ⟨contexts, hcontexts, rfl⟩ := Catalog.ofElement_eq_ok.mp h
  refine ⟨nodup_keys_tabled _ _, fun name c hc => ?_⟩
  obtain ⟨hc, hname⟩ := mem_of_get?_tabled hc
  obtain ⟨e, -, hload⟩ := exists_mem_of_mem_mapM hcontexts hc
  exact ⟨hname, Context.isKeyed_of_ofElement hload⟩

theorem message?_ofElement
    (hload : ofElement path document = .ok catalog) (h : IsOrderly document) {context source : String} :
    catalog.message? context source = some m ↔
      ∃ c ∈ named "context" document.children, ∃ e ∈ named "message" c.children,
        nameOf c = context ∧ sourceOf e = source ∧ Message.ofElement e = .ok m := by
  obtain ⟨contexts, hcontexts, rfl⟩ := Catalog.ofElement_eq_ok.mp hload
  have hcontext := get?_tabled_of_mapM (fun _ _ => Context.name_of_ofElement) hcontexts h.contexts context
  have hmessage : ∀ e ∈ named "context" document.children, ∀ c, Context.ofElement e = .ok c →
      (c.messages.get? source = some m ↔
        ∃ e' ∈ named "message" e.children, sourceOf e' = source ∧ Message.ofElement e' = .ok m) := by
    intro e he c hc
    obtain ⟨messages, name, hmessages, -, rfl⟩ := Context.ofElement_eq_ok.mp hc
    exact get?_tabled_of_mapM (fun _ _ => Message.source_of_ofElement) hmessages (h.sources e he) source m
  rw [message?, Option.bind_eq_some_iff]
  constructor
  · rintro ⟨c, hc, hm⟩
    obtain ⟨e, he, hname, hload'⟩ := (hcontext c).mp hc
    obtain ⟨e', he', hsource, hm⟩ := (hmessage e he c hload').mp hm
    exact ⟨e, he, e', he', hname, hsource, hm⟩
  · rintro ⟨e, he, e', he', hname, hsource, hm⟩
    obtain ⟨c, -, hload'⟩ := exists_mem_of_mapM hcontexts he
    exact ⟨c, (hcontext c).mpr ⟨e, he, hname, hload'⟩, (hmessage e he c hload').mpr ⟨e', he', hsource, hm⟩⟩

theorem mem_entries {entry : Entry} :
    entry ∈ entries document ↔ ∃ c ∈ named "context" document.children, ∃ e ∈ named "message" c.children,
      Entry.ofElement (nameOf c) e = entry := by
  simp [entries]

theorem exists_message_of_entry
    (hload : ofElement path document = .ok catalog) (h : IsOrderly document) {entry : Entry}
    (hentry : entry ∈ entries document) :
    ∃ m, catalog.message? entry.context entry.source = some m ∧ m.Holds entry := by
  obtain ⟨c, hc, e, he, rfl⟩ := mem_entries.mp hentry
  obtain ⟨t, ht, -⟩ := h.wordings c hc e he
  obtain ⟨contexts, hcontexts, -⟩ := Catalog.ofElement_eq_ok.mp hload
  obtain ⟨context, -, hcontext⟩ := exists_mem_of_mapM hcontexts hc
  obtain ⟨messages, name, hmessages, -⟩ := Context.ofElement_eq_ok.mp hcontext
  obtain ⟨m, -, hm⟩ := exists_mem_of_mapM hmessages he
  exact ⟨m, (message?_ofElement hload h).mpr ⟨c, hc, e, he, rfl, rfl, hm⟩, Message.holds_of_ofElement hm ht _⟩

theorem exists_entry_of_message
    (hload : ofElement path document = .ok catalog) (h : IsOrderly document) {context source : String}
    (hm : catalog.message? context source = some m) :
    ∃ entry ∈ entries document, entry.key = (context, source) := by
  obtain ⟨c, hc, e, he, rfl, rfl, -⟩ := (message?_ofElement hload h).mp hm
  exact ⟨_, mem_entries.mpr ⟨c, hc, e, he, rfl⟩, rfl⟩

/-! ## Entries that are written -/

/-- The entry of a message: what is still stale is out of use now. -/
def Message.entry (context : String) (m : Message) : Entry where
  context
  source := m.source
  location := m.location.map fun l => (some l.fileName, some l.line.text)
  status := if m.wording.status = some stale then some obsolete else m.wording.status
  text := m.wording.text.getD ""

theorem named_map (f : α → Element) {name : String} (h : ∀ a, (f a).name = name) (as : List α) :
    named name (as.map f) = as.map f :=
  filter_eq_self.mpr fun e he => by
    obtain ⟨a, -, rfl⟩ := mem_map.mp he
    simpa using h a

theorem named_map_of_ne (f : α → Element) {name : String} (h : ∀ a, (f a).name ≠ name) (as : List α) :
    named name (as.map f) = [] :=
  filter_eq_nil_iff.mpr fun e he => by
    obtain ⟨a, -, rfl⟩ := mem_map.mp he
    simpa using h a

theorem entry_toElement (context : String) (m : Message) : Entry.ofElement context m.toElement = m.entry context := by
  obtain ⟨location, source, status, text⟩ := m
  have htype : ∀ status : Option String,
      Element.attribute? ⟨"translation", (status.map fun s => ("type", s)).toList, some (text.getD ""), []⟩ "type" =
        status := fun status => by cases status <;> rfl
  cases location with
  | none => exact congrArg (Entry.mk context source none · _) (htype _)
  | some l => exact congrArg (Entry.mk context source _ · _) (htype _)

theorem children_toElement (c : Context) :
    c.toElement.children = textElement "name" c.name ::
      (sortBy (fun a b => textLt a.source b.source) c.messages.values).map Message.toElement := rfl

theorem nameOf_toElement (c : Context) : nameOf c.toElement = c.name := by
  rw [nameOf, lastText?, children_toElement, named_cons, named_map_of_ne _ fun _ => by simp [Message.toElement]]
  rfl

theorem entries_toElement (catalog : Catalog) :
    entries catalog.toElement =
      (sortBy (fun a b => textLt a.name b.name) catalog.contexts.values).flatMap fun c =>
        (sortBy (fun a b => textLt a.source b.source) c.messages.values).map (Message.entry c.name) := by
  have hcontexts : named "context" catalog.toElement.children = _ := named_map Context.toElement (fun _ => rfl) _
  rw [entries, hcontexts, flatMap_map]
  refine flatMap_congr fun c _ => ?_
  rw [children_toElement, named_cons, if_neg (by simp [textElement]), named_map Message.toElement fun _ => rfl,
    nameOf_toElement, map_map]
  exact map_congr_left fun m _ => entry_toElement c.name m

theorem mem_entries_toElement (h : catalog.IsKeyed) {entry : Entry} :
    entry ∈ entries catalog.toElement ↔
      ∃ context source m, catalog.message? context source = some m ∧ m.entry context = entry := by
  simp only [entries_toElement, mem_flatMap, mem_map, (sortBy_perm _ _).mem_iff, message?, Option.bind_eq_some_iff]
  constructor
  · rintro ⟨c, hc, m, hm, rfl⟩
    obtain ⟨name, hc⟩ := (mem_values_iff h.keys).mp hc
    obtain ⟨rfl, hkeyed⟩ := h.names name c hc
    obtain ⟨source, hm⟩ := (mem_values_iff hkeyed.keys).mp hm
    exact ⟨c.name, source, m, ⟨c, hc, hm⟩, rfl⟩
  · rintro ⟨context, source, m, ⟨c, hc, hm⟩, rfl⟩
    obtain ⟨rfl, hkeyed⟩ := h.names context c hc
    exact ⟨c, (mem_values_iff h.keys).mpr ⟨_, hc⟩, m, (mem_values_iff hkeyed.keys).mpr ⟨_, hm⟩, rfl⟩

theorem nodup_keys_toElement (h : catalog.IsKeyed) : ((entries catalog.toElement).map Entry.key).Nodup := by
  rw [entries_toElement, map_flatMap, nodup_flatMap]
  constructor
  · intro c hc
    obtain ⟨name, hc⟩ := (mem_values_iff h.keys).mp ((sortBy_perm _ _).mem_iff.mp hc)
    obtain ⟨-, hkeyed⟩ := h.names name c hc
    have hsources : ((sortBy (fun a b => textLt a.source b.source) c.messages.values).map (·.source)).Nodup := by
      rw [((sortBy_perm _ c.messages.values).map _).nodup_iff, map_values_eq_keys hkeyed.keys hkeyed.sources]
      exact hkeyed.keys
    rw [map_map]
    exact .of_map Prod.snd (by rwa [map_map])
  · have hnames : ((sortBy (fun a b => textLt a.name b.name) catalog.contexts.values).map (·.name)).Nodup := by
      rw [((sortBy_perm _ catalog.contexts.values).map _).nodup_iff,
        map_values_eq_keys h.keys fun key c hc => (h.names key c hc).1]
      exact h.keys
    refine (pairwise_map.mp hnames).imp fun {c c'} hne => ?_
    refine disjoint_left.mpr fun key hkey hkey' => ?_
    simp only [map_map, mem_map] at hkey hkey'
    obtain ⟨m, -, rfl⟩ := hkey
    obtain ⟨m', -, heq⟩ := hkey'
    exact hne (Prod.mk.inj heq).1.symm

end QmlScript.Localization
