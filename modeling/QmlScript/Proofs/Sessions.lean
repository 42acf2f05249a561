import QmlScript.Proofs.Oblivious

/-!
# Sources after other sources

Sources are parsed one after the other, and each may leave documentation for the next, or a root that the next
may document. This decides neither whether a source has a tree, nor what the tree is apart from its
documentation.
-/

namespace QmlScript

variable {δ ε ζ : Type}

mutual

theorem Node.mapDoc_mapDoc (f : δ → ε) (g : ε → ζ) (node : Node δ) :
    (node.mapDoc f).mapDoc g = node.mapDoc fun doc => g (f doc) := by
  cases node with
  | component doc type body => simp only [Node.mapDoc, Node.mapDocs_mapDocs f g body]
  | property doc type items => simp only [Node.mapDoc, Node.mapItems_mapItems f g items]
  | assignment doc target value => simp only [Node.mapDoc, Node.mapDoc_mapDoc f g value]
  | scope doc target values => simp only [Node.mapDoc, Node.mapDocs_mapDocs f g values]
  | behavior doc targets animation => simp only [Node.mapDoc, Node.mapDoc_mapDoc f g animation]
  | _ => simp only [Node.mapDoc]
termination_by sizeOf node

theorem Node.mapDocs_mapDocs (f : δ → ε) (g : ε → ζ) (nodes : List (Node δ)) :
    Node.mapDocs g (Node.mapDocs f nodes) = Node.mapDocs (fun doc => g (f doc)) nodes := by
  cases nodes with
  | nil => simp only [Node.mapDocs]
  | cons node nodes =>
    simp only [Node.mapDocs, Node.mapDoc_mapDoc f g node, Node.mapDocs_mapDocs f g nodes]
termination_by sizeOf nodes

theorem Node.mapItems_mapItems (f : δ → ε) (g : ε → ζ) (items : List (String × Node δ)) :
    Node.mapItems g (Node.mapItems f items) = Node.mapItems (fun doc => g (f doc)) items := by
  match items with
  | [] => simp only [Node.mapItems]
  | (name, value) :: items =>
    simp only [Node.mapItems, Node.mapDoc_mapDoc f g value, Node.mapItems_mapItems f g items]
termination_by sizeOf items

end

def Node.undocumented (node : Node δ) : Node Unit := node.mapDoc fun _ => ()

theorem Node.undocumented_setDoc (doc : δ) (node : Node δ) : (node.setDoc doc).undocumented = node.undocumented := by
  cases node <;> simp only [Node.setDoc, Node.undocumented, Node.mapDoc]

end QmlScript

namespace QmlScript.Grammar

open QmlScript.Grammar.Parser

variable {history : History} {text doc : String} {c : Cursor} {n n' : Notes}

/-! ## What is worth knowing of notes -/

/-- What a view sees behind a note depends on what it sees before. -/
theorem lasting_of_view {view : Notes → Notes} (hmarks : ∀ n, (view n).marks = n.marks)
    (hfault : ∀ n, (view n).fault = n.fault)
    (hcomment : ∀ n text offset, view (n.comment text offset) = view ((view n).comment text offset))
    (hdeclared : ∀ n, view n.declared = view (view n).declared)
    (hwith : ∀ n fault, view { n with fault } = { view n with fault }) :
    Lasting fun n m => view n = view m where
  marks := fun {n m} h => by rw [← hmarks n, h, hmarks]
  fault := fun {n m} h => by rw [← hfault n, h, hfault]
  comment := fun {n m} h text offset => by rw [hcomment n, h, ← hcomment]
  declared := fun {n m} h => by rw [hdeclared n, h, ← hdeclared]
  withFault := fun {n m} h fault => by rw [hwith n, h, ← hwith]

/-- The number of declarations, and whether a number could not be read. -/
def Notes.counts (notes : Notes) : Notes := { marks := notes.marks, fault := notes.fault }

def Anchor.ofSource : Anchor → Anchor
  | .here mark => .here mark
  | _ => .nothing

def Notes.documentation (notes : Notes) : Notes :=
  { notes with anchor := notes.anchor.ofSource, amendment := none, warnings := [] }

/-- A comment settles the root's documentation, and then may document. -/
theorem Notes.rel_comment {R : Notes → Notes → Prop} {n m : Notes}
    (hdocument : ∀ {n m}, R n m → ∀ text offset backward,
      R (n.document text offset backward) (m.document text offset backward))
    (h : R { n with root := n.root <|> n.pending } { m with root := m.root <|> m.pending }) (text : List Char)
    (offset : Nat) : R (n.comment text offset) (m.comment text offset) := by
  unfold Notes.comment
  dsimp only
  split
  · exact hdocument h _ _ _
  · split
    · exact hdocument h _ _ _
    · split
      · exact hdocument h _ _ _
      · exact h

theorem Notes.kept_comment {β : Type} (seen : Notes → β)
    (h : ∀ n pending docs amendment warnings, seen { n with pending, docs, amendment, warnings } = seen n)
    (n : Notes) (text : List Char) (offset : Nat) :
    seen (n.comment text offset) = seen { n with root := n.root <|> n.pending } := by
  refine Notes.rel_comment (R := fun k _ => seen k = _) (m := n)
    (fun {k _} hk text offset backward => ?_) rfl text offset
  unfold Notes.document
  dsimp only
  split
  · exact (h k _ _ _ _).trans hk
  · split
    · split <;> exact (h k _ _ _ _).trans hk
    · exact (h k _ _ _ _).trans hk

theorem Notes.counts_comment (notes : Notes) (text : List Char) (offset : Nat) :
    (notes.comment text offset).counts = notes.counts :=
  Notes.kept_comment Notes.counts (fun _ _ _ _ _ => rfl) notes text offset

theorem Notes.fault_comment (notes : Notes) (text : List Char) (offset : Nat) :
    (notes.comment text offset).fault = notes.fault :=
  Notes.kept_comment Notes.fault (fun _ _ _ _ _ => rfl) notes text offset

theorem fault_skipUpTo (bound : Nat) (c : Cursor) (notes : Notes) : (skipUpTo bound c notes).2.fault = notes.fault := by
  induction bound generalizing c notes with
  | zero => rfl
  | succ bound ih =>
    unfold skipUpTo
    dsimp only
    split
    · rw [ih]
      exact notes.fault_comment _ _
    · split
      · exact ih _ _
      · rfl

theorem fault_skip (c : Cursor) (notes : Notes) : (skip c notes).2.fault = notes.fault := fault_skipUpTo _ c notes

theorem lasting_counts : Lasting fun n m => n.counts = m.counts := by
  refine lasting_of_view (fun _ => rfl) (fun _ => rfl) (fun n text offset => ?_) (fun _ => rfl) fun _ _ => rfl
  rw [Notes.counts_comment, Notes.counts_comment]
  rfl

theorem lasting_documentation : Lasting fun n m => n.documentation = m.documentation := by
  have hdocument : ∀ n : Notes, ∀ text offset backward,
      (n.document text offset backward).documentation =
        (n.documentation.document text offset backward).documentation := by
    intro n text offset backward
    obtain ⟨pending, root, anchor, marks, docs, amendment, warnings, fault⟩ := n
    unfold Notes.document
    dsimp only
    by_cases hempty : String.ofList (Text.trim text) = ""
    · rw [if_pos hempty, if_pos hempty]
      cases anchor <;> rfl
    · rw [if_neg hempty, if_neg hempty]
      cases backward <;> cases anchor <;> rfl
  refine lasting_of_view (fun _ => rfl) (fun _ => rfl) (fun n text offset => ?_) (fun _ => rfl) fun _ _ => rfl
  refine Notes.rel_comment (R := fun n m => n.documentation = m.documentation) ?_ ?_ text offset
  · intro n m h text offset backward
    rw [hdocument n, h, ← hdocument]
  · obtain ⟨pending, root, anchor, marks, docs, amendment, warnings, fault⟩ := n
    cases anchor <;> rfl

/-! ## Two ends of one source -/

def resultOf (reply : Reply Marked) (notes : Notes) : Except ParseError Tree :=
  match notes.fault, reply with
  | some fault, _ => .error (.number fault)
  | none, .done tree _ => .ok (notes.resolve tree)
  | none, .miss offset lack => .error (.mismatch offset lack)
  | none, .stop offset lack => .error (.incomplete offset lack)

theorem parse_eq {reply : Reply Marked} {notes : Notes}
    (h : source (.ofText text.toList) history.start = (reply, notes)) :
    parse history text =
      { result := resultOf reply notes
        history := { pending := notes.pending, anchor := notes.anchor.behind (resultOf reply notes).isOk }
        amendment := notes.amendment
        warnings := notes.warnings.reverse.eraseDups } := by
  rw [History.start] at h
  rw [parse, h]
  rfl

theorem exists_source_of_parse {tree : Tree} (h : (parse history text).result = .ok tree) : ∃ marked next notes,
    source (.ofText text.toList) history.start = (.done marked next, notes) ∧ tree = notes.resolve marked := by
  rcases hsource : source (.ofText text.toList) history.start with ⟨reply, notes⟩
  rw [parse_eq hsource] at h
  simp only [resultOf] at h
  split at h
  · cases h
  · exact ⟨_, _, notes, rfl, (Except.ok.inj h).symm⟩
  · cases h
  · cases h

theorem Notes.undocumented_resolve (notes : Notes) (tree : Marked) :
    (notes.resolve tree).undocumented = tree.undocumented := by
  rw [Notes.resolve, Node.undocumented_setDoc, Node.undocumented, Node.mapDoc_mapDoc]
  rfl

/-- Sources before it change no tree but its documentation, and no error. -/
theorem parse_undocumented (history history' : History) (text : String) :
    (parse history text).result.map Node.undocumented = (parse history' text).result.map Node.undocumented := by
  obtain ⟨reply, n, m, hn, hm, h⟩ := Oblivious.source lasting_counts (.ofText text.toList)
    history.start history'.start rfl
  have hfault : n.fault = m.fault := lasting_counts.fault h
  rw [parse_eq hn, parse_eq hm]
  simp only [resultOf, hfault]
  cases m.fault with
  | some fault => rfl
  | none =>
    cases reply with
    | done tree next => simp only [Except.map, Notes.undocumented_resolve]
    | miss offset lack | stop offset lack => rfl

def Anchor.Behind (anchor : Anchor) : Prop := anchor.ofSource = .nothing

/-- Where nothing waits, a source has its own tree, and leaves as much. -/
theorem parse_of_idle (hpending : history.pending = none) (hanchor : history.anchor.Behind) (text : String) :
    (parse history text).result = (parse {} text).result ∧
      (parse history text).history.pending = (parse {} text).history.pending := by
  have hstart : history.start.documentation = (History.start {}).documentation := by
    unfold History.start Notes.documentation
    simp only [hpending, show history.anchor.ofSource = .nothing from hanchor]
    rfl
  obtain ⟨reply, n, m, hn, hm, h⟩ := Oblivious.source lasting_documentation (.ofText text.toList)
    history.start (History.start {}) hstart
  have hfault : n.fault = m.fault := lasting_documentation.fault h
  have hdocs := congrArg Notes.docs h
  have hroot := congrArg Notes.root h
  have hwaiting := congrArg Notes.pending h
  simp only [Notes.documentation] at hdocs hroot hwaiting
  rw [parse_eq hn, parse_eq hm]
  simp only [resultOf, Notes.resolve, hfault, hdocs, hroot, hwaiting, and_self]

/-! ## Documentation that is left waiting -/

theorem lasting_of_invariant {I : Notes → Prop} (hcomment : ∀ n, I n → ∀ text offset, I (n.comment text offset))
    (hdeclared : ∀ n, I n → I n.declared) (hwith : ∀ n, I n → ∀ fault, I { n with fault }) :
    Lasting fun n m => n = m ∧ I n where
  marks := fun h => by rw [h.1]
  fault := fun h => by rw [h.1]
  comment := fun {n m} h text offset => ⟨by rw [h.1], hcomment n h.2 text offset⟩
  declared := fun {n m} h => ⟨by rw [h.1], hdeclared n h.2⟩
  withFault := fun {n m} h fault => ⟨by rw [h.1], hwith n h.2 fault⟩

theorem Oblivious.keeps {α : Type} {I : Notes → Prop} {p : Parser α} (hp : Oblivious (fun n m => n = m ∧ I n) p)
    {reply : Reply α} (h : p c n = (reply, n')) (hn : I n) : I n' := by
  obtain ⟨reply', m, m', hm, -, -, hm'⟩ := hp c n n ⟨rfl, hn⟩
  obtain ⟨-, rfl⟩ := Prod.mk.inj (hm.symm.trans h)
  exact hm'

/-- The documentation is the root's, or will be when something is finished. -/
def Notes.Rooted (doc : String) (n : Notes) : Prop :=
  n.root = some doc ∨ n.root = none ∧ n.pending = some doc

theorem Notes.Rooted.root_or_pending (h : n.Rooted doc) : (n.root <|> n.pending) = some doc := by
  rcases h with hroot | ⟨hroot, hpending⟩
  · rw [hroot]
    rfl
  · rw [hroot, hpending]
    rfl

theorem Notes.root_comment (n : Notes) (text : List Char) (offset : Nat) :
    (n.comment text offset).root = (n.root <|> n.pending) :=
  Notes.kept_comment Notes.root (fun _ _ _ _ _ => rfl) n text offset

theorem lasting_rooted (doc : String) : Lasting fun n m => n = m ∧ n.Rooted doc :=
  lasting_of_invariant
    (fun n h text offset => .inl ((n.root_comment text offset).trans h.root_or_pending))
    (fun _ h => .inl h.root_or_pending) fun _ h _ => h

theorem bind_done_inv {α β : Type} {p : Parser α} {f : α → Parser β} {c' : Cursor} {b : β}
    (h : (p >>= f) c n = (.done b c', n')) :
    ∃ a next m, p c n = (.done a next, m) ∧ f a next m = (.done b c', n') := by
  rw [bind_eq, Parser.bind] at h
  rcases hp : p c n with ⟨reply, m⟩
  rw [hp] at h
  cases reply with
  | done a next => exact ⟨a, next, m, rfl, h⟩
  | miss offset lack | stop offset lack => cases h

/-- A component is finished with what the parsers of words and body keep. -/
theorem Closed.component_done {fits : Nat → Prop} {P : ∀ {α : Type}, Parser α → Prop} (hP : Closed fits P)
    {I : Cursor → Notes → Prop} {bound : Nat} {c' : Cursor} {tree : Marked}
    (hkeep : ∀ {α : Type} {p : Parser α} {c c' n n' a}, P p → p c n = (.done a c', n') → I c n → I c' n')
    (hfits : fits (skip c n).1.offset) (hI : I (skip c n).1 (skip c n).2)
    (h : componentUpTo bound c n = (.done tree c', n')) :
    ∃ m type body, I c' m ∧ n' = m.declared ∧ tree = .component m.marks type body := by
  cases bound with
  | zero => cases h
  | succ bound =>
    rw [componentUpTo] at h
    obtain ⟨_, _, _, hplace, h⟩ := bind_done_inv h
    obtain ⟨hreply, rfl⟩ := Prod.mk.inj hplace
    obtain ⟨rfl, rfl⟩ := Reply.done.inj hreply
    obtain ⟨type, _, _, htype, h⟩ := bind_done_inv h
    have hI := hkeep (hP.name _ _ _) htype hI
    obtain ⟨_, _, _, hopen, h⟩ := bind_done_inv h
    have hI := hkeep (hP.mark _) hopen hI
    obtain ⟨body, _, _, hbody, h⟩ := bind_done_inv h
    have hI := hkeep (hP.many (hP.declarations bound).2) hbody hI
    obtain ⟨_, _, _, hclose, h⟩ := bind_done_inv h
    have hI := hkeep (hP.mark _) hclose hI
    obtain ⟨_, _, m, hcheck, h⟩ := bind_done_inv h
    have hI := hkeep (hP.checkType _ hfits) hcheck hI
    obtain ⟨_, _, _, hdeclare, h⟩ := bind_done_inv h
    obtain ⟨hreply, rfl⟩ := Prod.mk.inj hdeclare
    obtain ⟨rfl, rfl⟩ := Reply.done.inj hreply
    obtain ⟨hreply, rfl⟩ := Prod.mk.inj h
    obtain ⟨rfl, rfl⟩ := Reply.done.inj hreply
    exact ⟨m, type, body, hI, rfl, rfl⟩

theorem exists_component_of_source {c' : Cursor} {tree : Marked} (h : source c n = (.done tree c', n')) :
    ∃ d m, component c n = (.done tree d, m) ∧ n' = (skip d m).2 := by
  obtain ⟨_, d, m, hcomponent, h⟩ := bind_done_inv h
  obtain ⟨_, _, _, hplace, h⟩ := bind_done_inv h
  obtain ⟨-, rfl⟩ := Prod.mk.inj hplace
  split at h
  · obtain ⟨hreply, rfl⟩ := Prod.mk.inj h
    obtain ⟨rfl, -⟩ := Reply.done.inj hreply
    exact ⟨d, m, hcomponent, rfl⟩
  · cases h

/-- The first documentation in front of a source is that of its root. -/
theorem parse_noted (hnoted : (skip (.ofText text.toList) history.start).2.Rooted doc) {tree : Tree}
    (h : (parse history text).result = .ok tree) : ∃ type body, tree = .component (some doc) type body := by
  obtain ⟨marked, next, n, hsource, rfl⟩ := exists_source_of_parse h
  obtain ⟨c, m, hcomponent, rfl⟩ := exists_component_of_source hsource
  obtain ⟨k, type, body, hrooted, rfl, rfl⟩ := (Oblivious.closed (lasting_rooted doc)).component_done
    (I := fun _ n => n.Rooted doc) (fun hp hrun hn => hp.keeps hrun hn) trivial hnoted hcomponent
  have hkept : Lasting fun n m => n = m ∧ n.root = some doc :=
    lasting_of_invariant (fun n h text offset => by rw [n.root_comment, h]; rfl)
      (fun n h => by rw [Notes.declared, h]; rfl) fun _ h _ => h
  have hroot : (skip c k.declared).2.root = some doc :=
    (Oblivious.place hkept).keeps (c := c) (n := k.declared) rfl hrooted.root_or_pending
  rw [Notes.resolve, hroot]
  exact ⟨type, _, rfl⟩

theorem parse_rooted (hpending : history.pending = some doc) {tree : Tree}
    (h : (parse history text).result = .ok tree) : ∃ type body, tree = .component (some doc) type body := by
  obtain ⟨_, n', _, hskip, -, -, hn'⟩ := Oblivious.skip (lasting_rooted doc) (.ofText text.toList)
    (n := history.start) ⟨rfl, .inr ⟨rfl, hpending⟩⟩
  exact parse_noted (by rw [hskip]; exact hn') h

/-! ## Documentation for an earlier root -/

def Warning.isUnused : Warning → Bool
  | .unused _ _ => true
  | .empty _ => false

/-- Notes behind an earlier source and alone: what changes the earlier root is unused alone. -/
structure Trails (n m : Notes) : Prop where
  marks : n.marks = m.marks
  fault : n.fault = m.fault
  anchor : n.anchor = .earlierRoot ∧ m.anchor = .nothing ∨
    ∃ mark, n.anchor = .here mark ∧ m.anchor = .here mark
  amended : n.amendment.isSome = m.warnings.any Warning.isUnused

theorem Trails.document {m : Notes} (h : Trails n m) (text : List Char) (offset : Nat) (backward : Bool) :
    Trails (n.document text offset backward) (m.document text offset backward) := by
  obtain ⟨hmarks, hfault, hanchor, hamended⟩ := h
  unfold Notes.document
  dsimp only
  by_cases hempty : String.ofList (Text.trim text) = ""
  · rw [if_pos hempty, if_pos hempty]
    exact ⟨hmarks, hfault, hanchor, by simpa [Warning.isUnused] using hamended⟩
  · rw [if_neg hempty, if_neg hempty]
    cases backward with
    | false => exact ⟨hmarks, hfault, hanchor, hamended⟩
    | true =>
      rcases hanchor with ⟨hn, hm⟩ | ⟨mark, hn, hm⟩
      · simp only [hn, hm, if_true]
        exact ⟨hmarks, hfault, .inl ⟨rfl, rfl⟩, by simp [Warning.isUnused]⟩
      · simp only [hn, hm, if_true]
        exact ⟨hmarks, hfault, .inr ⟨mark, rfl, rfl⟩, hamended⟩

theorem lasting_trails : Lasting Trails where
  marks := Trails.marks
  fault := Trails.fault
  comment := fun h text offset =>
    Notes.rel_comment Trails.document ⟨h.marks, h.fault, h.anchor, h.amended⟩ text offset
  declared := fun {n m} h =>
    ⟨congrArg (· + 1) h.marks, h.fault, .inr ⟨n.marks, rfl, by rw [h.marks]; rfl⟩, h.amended⟩
  withFault := fun h _ => ⟨h.marks, rfl, h.anchor, h.amended⟩

/-- No earlier root is in reach of comments, and none was changed. -/
def Notes.Detached (n : Notes) : Prop := n.anchor ≠ .earlierRoot ∧ n.amendment = none

theorem lasting_detached : Lasting fun n m => n = m ∧ n.Detached := by
  have hdocument : ∀ n : Notes, n.Detached → ∀ text offset backward, (n.document text offset backward).Detached := by
    intro n h text offset backward
    obtain ⟨pending, root, anchor, marks, docs, amendment, warnings, fault⟩ := n
    unfold Notes.document
    dsimp only
    split
    · exact h
    · cases backward with
      | false => exact h
      | true =>
        cases anchor with
        | earlierRoot => exact absurd rfl h.1
        | _ => exact h
  refine lasting_of_invariant (fun n h text offset => ?_) (fun _ h => ⟨by simp [Notes.declared], h.2⟩) fun _ h _ => h
  exact Notes.rel_comment (R := fun n _ => n.Detached) (m := n) (hdocument _) h text offset

/-- A source changes the documentation of an earlier root exactly if one is in reach, and a comment of it documents
nothing when it is parsed alone. -/
theorem parse_amendment (history : History) (text : String) :
    (parse history text).amendment.isSome = true ↔
      history.anchor = .earlierRoot ∧ (parse {} text).warnings.any Warning.isUnused = true := by
  by_cases hroot : history.anchor = .earlierRoot
  · have hstart : Trails history.start (History.start {}) := ⟨rfl, rfl, .inl ⟨hroot, rfl⟩, rfl⟩
    obtain ⟨reply, n, m, hn, hm, h⟩ := Oblivious.source lasting_trails (.ofText text.toList)
      history.start (History.start {}) hstart
    have hany : m.warnings.reverse.eraseDups.any Warning.isUnused = m.warnings.any Warning.isUnused := by
      rw [Bool.eq_iff_iff]
      simp [List.any_eq_true, List.mem_eraseDups]
    rw [parse_eq hn, parse_eq hm]
    simp only [h.amended, hany, hroot, true_and]
  · rcases hsource : source (.ofText text.toList) history.start with ⟨reply, n⟩
    have hdetached := (Oblivious.source lasting_detached).keeps hsource ⟨hroot, rfl⟩
    rw [parse_eq hsource]
    simp [hdetached.2, hroot]

/-- Sources parsed one after the other: what is left for the next, and what came of each, the latest first. -/
structure Session where
  history : History := {}
  results : List (Except ParseError Tree) := []

/-- The results with new documentation for the root of the latest tree. -/
def amendLatest (doc : String) : List (Except ParseError Tree) → List (Except ParseError Tree)
  | [] => []
  | .ok tree :: results => .ok (tree.setDoc (some doc)) :: results
  | .error e :: results => .error e :: amendLatest doc results

def Session.feed (s : Session) (text : String) : Session :=
  let outcome := parse s.history text
  let earlier :=
    match outcome.amendment with
    | some doc => amendLatest doc s.results
    | none => s.results
  { history := outcome.history, results := outcome.result :: earlier }

def Session.run (s : Session) (sources : List String) : Session := sources.foldl Session.feed s

theorem Session.history_feed (s : Session) (text : String) :
    (s.feed text).history = (parse s.history text).history := by
  rw [Session.feed]

theorem Anchor.behind_behind (ok : Bool) (anchor : Anchor) : (anchor.behind ok).Behind := by
  cases anchor <;> cases ok <;> rfl

theorem Session.feed_behind (s : Session) (text : String) : (s.feed text).history.anchor.Behind := by
  rcases hsource : source (.ofText text.toList) s.history.start with ⟨reply, n⟩
  rw [Session.history_feed, parse_eq hsource]
  exact Anchor.behind_behind _ _

theorem Session.run_cons (s : Session) (text : String) (sources : List String) :
    s.run (text :: sources) = (s.feed text).run sources := List.foldl_cons ..

theorem Session.behind {s : Session} (h : s.history.anchor.Behind) (sources : List String) :
    (s.run sources).history.anchor.Behind := by
  induction sources generalizing s with
  | nil => exact h
  | cons text sources ih =>
    rw [Session.run_cons]
    exact ih (s.feed_behind text)

/-- Sources that leave nothing waiting alone leave nothing together. -/
theorem Session.idle {s : Session} (hanchor : s.history.anchor.Behind)
    (hpending : s.history.pending = none) {sources : List String}
    (h : ∀ text ∈ sources, (parse {} text).history.pending = none) :
    (s.run sources).history.pending = none := by
  induction sources generalizing s with
  | nil => exact hpending
  | cons text sources ih =>
    have hleft : (s.feed text).history.pending = none := by
      rw [Session.history_feed, (parse_of_idle hpending hanchor text).2]
      exact h text (by simp)
    rw [Session.run_cons]
    exact ih (s.feed_behind text) hleft fun t ht => h t (by simp [ht])

theorem Session.results_feed (s : Session) (h : (parse {} text).warnings.any Warning.isUnused = false) :
    (s.feed text).results = (parse s.history text).result :: s.results := by
  have hnone : (parse s.history text).amendment = none := by
    by_contra hsome
    have hboth := (parse_amendment s.history text).mp (Option.isSome_iff_ne_none.mpr hsome)
    rw [h] at hboth
    exact absurd hboth.2 (by simp)
  simp only [Session.feed, hnone]

/-- Earlier sources never change what a source declares, or its error. They change its documentation only
if one of them leaves documentation waiting, and then by documenting its root. A source changes what
came of earlier ones only if it has a comment that documents nothing of its own. -/
theorem parse_after_session (earlier : List String) (text : String) :
    let session := Session.run {} earlier
    let result := (parse session.history text).result
    result.map Node.undocumented = (parse {} text).result.map Node.undocumented ∧
    (session.history.pending = none → result = (parse {} text).result) ∧
    (∀ doc tree, session.history.pending = some doc → result = .ok tree →
      ∃ type body, tree = .component (some doc) type body) ∧
    ((∀ source ∈ earlier, (parse {} source).history.pending = none) → session.history.pending = none) ∧
    ((parse {} text).warnings.any Warning.isUnused = false →
      (session.feed text).results = result :: session.results) := by
  have hstart : (Session.history {}).anchor.Behind := rfl
  have hanchor := Session.behind hstart earlier
  have hidle := @Session.idle {} hstart rfl earlier
  generalize Session.run {} earlier = session at hanchor hidle
  exact ⟨parse_undocumented session.history {} text,
    fun hpending => (parse_of_idle hpending hanchor text).1,
    fun _ _ hpending hresult => parse_rooted hpending hresult, hidle, session.results_feed⟩

def rootDocumentation : Except ParseError Tree → Option (Option String)
  | .ok (.component doc _ _) => some doc
  | _ => none

/-- A documented source and one that ends too early say nothing about a third one. -/
theorem parse_after_documented :
    let session := Session.run {} ["/// first\nA \x7b \x7d", "B \x7b p: "]
    (parse session.history "/// third\nC \x7b D \x7b \x7d \x7d").result =
      (parse {} "/// third\nC \x7b D \x7b \x7d \x7d").result ∧
    (session.feed "/// third\nC \x7b D \x7b \x7d \x7d").results.map rootDocumentation =
      [some (some "third"), none, some (some "first")] := by
  intro session
  obtain ⟨_, hsame, _, hidle, _⟩ := parse_after_session ["/// first\nA \x7b \x7d", "B \x7b p: "]
    "/// third\nC \x7b D \x7b \x7d \x7d"
  exact ⟨hsame (hidle (by decide +kernel)), by decide +kernel⟩

/-- A comment behind a root documents the root of the next source, and a comment before a root that of the
source before it. -/
theorem comments_cross_sources :
    (Session.run {} ["A \x7b \x7d /// late", "B \x7b \x7d"]).results.map rootDocumentation =
      [some (some "late"), some none] ∧
    rootDocumentation (parse {} "B \x7b \x7d").result = some none ∧
    (Session.run {} ["A \x7b \x7d", "///< early\nB \x7b \x7d"]).results.map rootDocumentation =
      [some none, some (some "early")] ∧
    rootDocumentation (parse {} "A \x7b \x7d").result = some none := by
  decide +kernel

end QmlScript.Grammar
