import QmlScript.Compile
import QmlScript.Proofs.Files
import QmlScript.Proofs.Sessions

/-!
# The cache does not show

A source file is parsed, or its tree is taken from the cache; whatever happened before, the answer is the
one that parsing gives, apart from documentation.
-/

namespace QmlScript.Job

variable {α β : Type}

def runIn (w : Workspace) (job : Job α) : Except BuildError α × Workspace := job.run.run w

theorem runIn_get (w : Workspace) : runIn w get = (.ok w, w) := rfl

theorem runIn_set (w w' : Workspace) : runIn w (set w') = (.ok (), w') := rfl

theorem runIn_bind (w : Workspace) (job : Job α) (f : α → Job β) :
    runIn w (job >>= f) =
      match runIn w job with
      | (.ok a, w) => runIn w (f a)
      | (.error e, w) => (.error e, w) := by
  have hstep : runIn w (job >>= f) = ExceptT.bindCont f (runIn w job).1 (runIn w job).2 := rfl
  rw [hstep]
  rcases runIn w job with ⟨a | a, w⟩ <;> rfl

theorem runIn_look (w : Workspace) (f : FileTree → Except FileError α) :
    runIn w (look f) = ((f w.tree).mapError .file, w) := by
  rw [look, runIn_bind, runIn_get]
  cases hf : f w.tree <;> simp only [ofExcept, hf] <;> rfl

end QmlScript.Job

namespace QmlScript.Compile

open Grammar Text Option

variable {w : Workspace} {isHeard : Bool} {name path text : String}
variable {e : ParseError} {tree : Tree} {outcome : Outcome} {files : FileTree} {history history' : History}
  {call : Except BuildError Parsed × Workspace}

def heard (isHeard : Bool) (name path : String) (outcome : Outcome) (w : Workspace) : Workspace :=
  { w with
    log := if isHeard then w.log ++ [s!"parsing {path} ... {name}"] else w.log
    history := outcome.history
    output := w.output ++ if isHeard then outcome.warnings.map (·.message) else [] }

/-! ## What a call does -/

theorem parseFile_unread {e : FileError} (hread : w.tree.read path = .error e) :
    (parseFile isHeard name path).runIn w = (.error (.file e), w) := by
  rw [parseFile, Job.runIn_bind, Job.runIn_look, hread]
  rfl

theorem parseFile_cached (hread : w.tree.read path = .ok text)
    (hcached : w.cache.read? w.tree name (sourceKey text) = some tree) :
    (parseFile isHeard name path).runIn w = (.ok { tree, text, isNew := false }, w) := by
  rw [parseFile, Job.runIn_bind, Job.runIn_look, hread]
  simp only [Except.mapError, Job.runIn_bind, Job.runIn_get, hcached]
  rfl

/-- A source that is not cached goes to the parser, which touches no files. -/
theorem parseFile_heard (isHeard : Bool) (hread : w.tree.read path = .ok text)
    (hcached : w.cache.read? w.tree name (sourceKey text) = none) :
    ∃ w₁ : Workspace, w₁.cache = w.cache ∧ w₁.tree = w.tree ∧ (parseFile isHeard name path).runIn w =
      (keepOutcome name path text (parse w.history text)).runIn w₁ := by
  rw [parseFile, Job.runIn_bind, Job.runIn_look, hread]
  simp only [Except.mapError, Job.runIn_bind, Job.runIn_get, hcached]
  generalize parse w.history text = outcome
  refine ⟨heard isHeard name path outcome w, rfl, rfl, ?_⟩
  cases isHeard with
  | false | true => rfl

theorem runIn_keepOutcome_unkept {e : FileError} (h : outcome.result = .ok tree)
    (hkeep : w.cache.keep w.tree name (sourceKey text) tree = .error e) :
    (keepOutcome name path text outcome).runIn w = (.error (.notKept path e), w) := by
  rw [keepOutcome, h]
  simp only [Job.runIn_bind, Job.runIn_get, hkeep]
  rfl

theorem runIn_keepOutcome_kept (h : outcome.result = .ok tree)
    (hkeep : w.cache.keep w.tree name (sourceKey text) tree = .ok files) :
    (keepOutcome name path text outcome).runIn w =
      (.ok { tree, text, isNew := true, amendment := outcome.amendment }, { w with tree := files }) := by
  rw [keepOutcome, h]
  simp only [Job.runIn_bind, Job.runIn_get, hkeep, Job.runIn_set]
  rfl

theorem trimBy_of_ends {drop : Char → Bool} {x y : Char} {s : List Char} (hx : drop x = false)
    (hy : drop y = false) : trimBy drop (x :: (s ++ [y])) = x :: (s ++ [y]) := by
  have hback : (x :: (s ++ [y])).reverse = y :: (s.reverse ++ [x]) := by simp
  rw [trimBy, List.dropWhile_cons_of_neg (by simp [hx]), hback, List.dropWhile_cons_of_neg (by simp [hy]),
    ← hback, List.reverse_reverse]

theorem toList_sourceKey (text : String) :
    (sourceKey text).toList = '(' :: (text.toList.flatMap Term.markedChar ++ [')']) := by
  rw [sourceKey, Term.text, String.toList_ofList, Term.word, Term.chars, Term.charsOf, List.nil_append]

theorem sourceKey_injective {other : String} (h : sourceKey text = sourceKey other) : text = other := by
  have hterm := congrArg Term.ofText? h
  rw [sourceKey, sourceKey, Term.ofText?_text, Term.ofText?_text] at hterm
  exact (Term.node.inj (some.inj hterm)).1

theorem newline_not_mem_sourceKey (text : String) : '\n' ∉ (sourceKey text).toList := by
  have hmarked : ∀ c, '\n' ∉ Term.markedChar c := by
    intro c
    rw [Term.markedChar]
    split
    · decide
    · rename_i hline
      simp [Ne.symm hline]
  rw [toList_sourceKey]
  simp [hmarked]

theorem trimBy_sourceKey (text : String) :
    trimBy isPlainBlank (sourceKey text).toList = (sourceKey text).toList := by
  rw [toList_sourceKey, trimBy_of_ends (by decide) (by decide)]

/-! ## What is in the cache -/

/-- The file of the name holds the tree of the text: its first line is the key, and the rest restores the tree. -/
def Holds (w : Workspace) (name text : String) (tree : Tree) : Prop :=
  ∃ line rest : List Char, w.tree.readExact (w.cache.path name) = .ok (String.ofList (line ++ '\n' :: rest)) ∧
    '\n' ∉ line ∧ trimBy isPlainBlank line = (sourceKey text).toList ∧
    w.cache.codec.decode? (String.ofList rest) = some tree

theorem read?_eq_some : w.cache.read? w.tree name (sourceKey text) = some tree ↔ Holds w name text tree := by
  constructor
  · intro h
    rw [Cache.read?] at h
    cases hread : w.tree.readExact (w.cache.path name) with
    | error e =>
      rw [hread] at h
      cases h
    | ok file =>
      rw [hread] at h
      obtain ⟨⟨line, rest⟩, hcut, hrest⟩ := bind_eq_some_iff.mp h
      obtain ⟨hfile, hline⟩ := cutFirst?_eq_some hcut
      dsimp only at hrest
      split at hrest
      · rename_i hkey
        exact ⟨line, rest, by rw [hread, ← hfile, String.ofList_toList], hline, hkey, hrest⟩
      · cases hrest
  · rintro ⟨line, rest, hread, hline, hkey, hrest⟩
    rw [Cache.read?, hread]
    dsimp only
    rw [Cache.restore?, String.toList_ofList, cutFirst?_append rest hline]
    exact (if_pos hkey).trans hrest

theorem toList_fileText (cache : Cache Tree) (key : String) (tree : Tree) :
    (cache.fileText key tree).toList = key.toList ++ '\n' :: (cache.codec.encode tree).toList := by
  simp [Cache.fileText]

/-- A file that was just written holds what was written, and nothing else. -/
theorem holds_of_fileText {other : String} {tree' : Tree} (hread : w.tree.readExact (w.cache.path name) =
    .ok (w.cache.fileText (sourceKey text) tree)) : Holds w name other tree' ↔ other = text ∧ tree' = tree := by
  have hline := newline_not_mem_sourceKey text
  constructor
  · rintro ⟨line, rest, hread', hline', hkey, hrest⟩
    have hfile := congrArg String.toList (Except.ok.inj (hread.symm.trans hread'))
    rw [toList_fileText, String.toList_ofList] at hfile
    have hcut := cutFirst?_append (w.cache.codec.encode tree).toList hline
    rw [hfile, cutFirst?_append rest hline'] at hcut
    obtain ⟨rfl, rfl⟩ := Prod.mk.inj (some.inj hcut)
    rw [trimBy_sourceKey] at hkey
    rw [String.ofList_toList, w.cache.codec.decode?_encode] at hrest
    exact ⟨(sourceKey_injective (String.toList_inj.mp hkey)).symm, (some.inj hrest).symm⟩
  · rintro ⟨rfl, rfl⟩
    refine ⟨_, (w.cache.codec.encode tree').toList, ?_, hline, trimBy_sourceKey _, ?_⟩
    · rw [hread, ← toList_fileText, String.ofList_toList]
    · rw [String.ofList_toList, w.cache.codec.decode?_encode]

/-- What the cache holds are trees of the texts that it holds them for. -/
def Honest (w : Workspace) : Prop :=
  ∀ name text tree, Holds w name text tree → ∃ history, (parse history text).result = .ok tree

theorem Honest.keep {w' : Workspace} (h : Honest w) (hparse : (parse history text).result = .ok tree)
    (hcache : w'.cache = w.cache) (hkeep : w.cache.keep w.tree name (sourceKey text) tree = .ok w'.tree) :
    Honest w' ∧ Holds w' name text tree := by
  obtain ⟨hwritten, hothers⟩ := FileTree.readExact_write hkeep
  rw [← hcache] at hwritten hothers
  refine ⟨fun other text' tree' hholds => ?_, (holds_of_fileText hwritten).mpr ⟨rfl, rfl⟩⟩
  obtain ⟨line, rest, hread, hrest⟩ := id hholds
  rcases hothers _ _ hread with hnew | hold
  · rw [hnew] at hread
    obtain ⟨rfl, rfl⟩ := (holds_of_fileText hread).mp hholds
    exact ⟨history, hparse⟩
  · rw [hcache] at hold hrest
    exact h other text' tree' ⟨line, rest, hold, hrest⟩

theorem parseFile_cases (hcall : (parseFile isHeard name path).runIn w = call) :
    (∃ e, w.tree.read path = .error e ∧ call = (.error (.file e), w)) ∨
    ∃ text, w.tree.read path = .ok text ∧
      ((∃ tree, Holds w name text tree ∧ call = (.ok { tree, text, isNew := false }, w)) ∨
        call.2.cache = w.cache ∧
          ((∃ e, (parse w.history text).result = .error e ∧ call.1 = .error (.source path text e) ∧
              call.2.tree = w.tree) ∨
            ∃ tree, (parse w.history text).result = .ok tree ∧
              ((∃ e, w.cache.keep w.tree name (sourceKey text) tree = .error e ∧
                  call.1 = .error (.notKept path e) ∧ call.2.tree = w.tree) ∨
                ∃ amendment, w.cache.keep w.tree name (sourceKey text) tree = .ok call.2.tree ∧
                  call.1 = .ok { tree, text, isNew := true, amendment }))) := by
  cases hread : w.tree.read path with
  | error e => exact .inl ⟨e, rfl, hcall.symm.trans (parseFile_unread hread)⟩
  | ok text =>
    refine .inr ⟨text, rfl, ?_⟩
    cases hcached : w.cache.read? w.tree name (sourceKey text) with
    | some tree => exact .inl ⟨tree, read?_eq_some.mp hcached, hcall.symm.trans (parseFile_cached hread hcached)⟩
    | none =>
      right
      obtain ⟨w₁, hcache, htree, hrun⟩ := parseFile_heard isHeard hread hcached
      rw [hrun] at hcall
      rw [← hcache, ← htree]
      cases hparse : (parse w.history text).result with
      | error e =>
        rw [keepOutcome, hparse] at hcall
        exact ⟨hcall ▸ rfl, .inl ⟨e, rfl, hcall ▸ rfl, hcall ▸ rfl⟩⟩
      | ok tree =>
        cases hkeep : w₁.cache.keep w₁.tree name (sourceKey text) tree with
        | error e =>
          rw [runIn_keepOutcome_unkept hparse hkeep] at hcall
          exact ⟨by rw [← hcall], .inr ⟨tree, rfl, .inl ⟨e, hkeep, by rw [← hcall], by rw [← hcall]⟩⟩⟩
        | ok files =>
          rw [runIn_keepOutcome_kept hparse hkeep] at hcall
          exact ⟨by rw [← hcall], .inr ⟨tree, rfl, .inr ⟨_, by rw [hkeep, ← hcall], by rw [← hcall]⟩⟩⟩

/-- What can happen to a workspace: sources are parsed, waiting documentation changes, and files are damaged, removed
or copied; but nobody else writes trees to the cache. -/
inductive Run (start : Workspace) : Workspace → Prop
  | start : Run start start
  | call {w : Workspace} (run : Run start w) (isHeard : Bool) (name path : String) :
      Run start ((parseFile isHeard name path).runIn w).2
  | change {w : Workspace} (run : Run start w) (files : FileTree) (history : History)
      (saved : ∀ name text tree, Holds { w with tree := files } name text tree → ∃ other, Holds w other text tree) :
      Run start { w with tree := files, history }

theorem Honest.runIn_parseFile (h : Honest w) (isHeard : Bool) (name path : String) :
    Honest ((parseFile isHeard name path).runIn w).2 := by
  generalize hcall : (parseFile isHeard name path).runIn w = call
  have hsame : call.2.cache = w.cache → call.2.tree = w.tree → Honest call.2 := by
    intro hcache htree name text tree hholds
    rw [Holds, hcache, htree] at hholds
    exact h name text tree hholds
  obtain ⟨e, -, rfl⟩ | ⟨text, -, ⟨tree, -, rfl⟩ | ⟨hcache, ⟨e, -, -, htree⟩ | ⟨tree, hparse, ⟨e, -, -, htree⟩ |
    ⟨amendment, hkeep, -⟩⟩⟩⟩ := parseFile_cases hcall
  · exact h
  · exact h
  · exact hsame hcache htree
  · exact hsame hcache htree
  · exact (h.keep hparse hcache hkeep).1

theorem Honest.run {start : Workspace} (h : Honest start) (run : Run start w) : Honest w := by
  induction run with
  | start => exact h
  | call run isHeard name path ih => exact ih.runIn_parseFile isHeard name path
  | change run files history saved ih =>
    intro name text tree hholds
    obtain ⟨other, hother⟩ := saved name text tree hholds
    exact ih other text tree hother

theorem parse_error_of_error (h : (parse history text).result = .error e) :
    (parse history' text).result = .error e := by
  have hmap := parse_undocumented history history' text
  rw [h] at hmap
  cases hresult : (parse history' text).result with
  | error e' =>
    rw [hresult] at hmap
    exact congrArg Except.error (Except.error.inj hmap).symm
  | ok tree =>
    rw [hresult] at hmap
    cases hmap

theorem not_error_of_ok (h : (parse history text).result = .ok tree) : (parse history' text).result ≠ .error e := by
  intro he
  rw [parse_error_of_error he] at h
  cases h

theorem undocumented_of_ok {tree' : Tree} (h : (parse history text).result = .ok tree)
    (h' : (parse history' text).result = .ok tree') :
    tree.undocumented = tree'.undocumented := by
  have hmap := parse_undocumented history history' text
  rw [h, h'] at hmap
  exact Except.ok.inj hmap

/-- The answer is that of parsing the text of the file, apart from documentation. Without a tree nothing is saved. A
tree that was not parsed is held by the cache, and one that was is held from now on. Other errors are those of reading
the source and of writing the cache. -/
structure Transparent (w : Workspace) (name path : String) (call : Except BuildError Parsed × Workspace) :
    Prop where
  unread : ∀ e, w.tree.read path = .error e → call = (.error (.file e), w)
  refused : ∀ text e, w.tree.read path = .ok text → (parse {} text).result = .error e →
    call.1 = .error (.source path text e) ∧ call.2.cache = w.cache ∧ call.2.tree = w.tree
  answered : ∀ text tree, w.tree.read path = .ok text → (parse {} text).result = .ok tree →
    (∃ parsed, call.1 = .ok parsed ∧ parsed.text = text ∧ parsed.tree.undocumented = tree.undocumented ∧
      (parsed.isNew = false → call.2 = w) ∧ (parsed.isNew = false → Holds w name text parsed.tree) ∧
      Holds call.2 name text parsed.tree) ∨
    ∃ parsed e, (parse w.history text).result = .ok parsed ∧
      w.cache.keep w.tree name (sourceKey text) parsed = .error e ∧
      call.1 = .error (.notKept path e) ∧ call.2.cache = w.cache ∧ call.2.tree = w.tree

theorem Honest.transparent (h : Honest w) (isHeard : Bool) (name path : String) :
    Transparent w name path ((parseFile isHeard name path).runIn w) := by
  generalize hcall : (parseFile isHeard name path).runIn w = call
  obtain ⟨e, hread, rfl⟩ | ⟨text, hread, hcases⟩ := parseFile_cases hcall
  · refine ⟨fun e' he' => ?_, fun text e' htext _ => ?_, fun text tree htext _ => ?_⟩
    · rw [Except.error.inj (hread.symm.trans he')]
    · cases hread.symm.trans htext
    · cases hread.symm.trans htext
  refine ⟨fun e' he' => ?_, fun text' e' htext he' => ?_, fun text' tree' htext htree => ?_⟩
  · cases hread.symm.trans he'
  · obtain rfl := Except.ok.inj (hread.symm.trans htext)
    obtain ⟨tree, hholds, -⟩ | ⟨hcache, ⟨e, hparse, hresult, hsame⟩ | ⟨tree, hparse, -⟩⟩ := hcases
    · obtain ⟨history, hparse⟩ := h name text tree hholds
      exact absurd he' (not_error_of_ok hparse)
    · have he : (parse {} text).result = .error e := parse_error_of_error hparse
      obtain rfl : e = e' := Except.error.inj (he.symm.trans he')
      exact ⟨hresult, hcache, hsame⟩
    · exact absurd he' (not_error_of_ok hparse)
  · obtain rfl := Except.ok.inj (hread.symm.trans htext)
    obtain ⟨tree, hholds, rfl⟩ | ⟨hcache, ⟨e, hparse, -⟩ | ⟨tree, hparse, ⟨e, hkeep, hresult, hsame⟩ |
      ⟨amendment, hkeep, hresult⟩⟩⟩ := hcases
    · obtain ⟨history, hparse⟩ := h name text tree hholds
      exact .inl ⟨_, rfl, rfl, undocumented_of_ok hparse htree, fun _ => rfl, fun _ => hholds, hholds⟩
    · exact absurd hparse (not_error_of_ok htree)
    · exact .inr ⟨tree, e, hparse, hkeep, hresult, hcache, hsame⟩
    · exact .inl ⟨_, hresult, rfl, undocumented_of_ok hparse htree, by rintro ⟨⟩, by rintro ⟨⟩,
        (h.keep hparse hcache hkeep).2⟩

/-- Whatever happened since the cache held nothing but what was saved, the cache does not show. -/
theorem parseFile_transparent {start : Workspace} (hstart : Honest start) (run : Run start w)
    (isHeard : Bool) (name path : String) :
    Transparent w name path ((parseFile isHeard name path).runIn w) :=
  (hstart.run run).transparent isHeard name path

theorem honest_of_one_line (h : ∀ file ∈ w.tree.files, '\n' ∉ file.2.toList) : Honest w := by
  rintro name text tree ⟨line, rest, hread, -⟩
  obtain ⟨path, hmem⟩ := FileTree.mem_files_of_readExact hread
  exact absurd (by simp) (h _ hmem)

/-- Files with a source, and something else in the cache under its name. -/
def sampleFiles : FileTree := .dir [(".cache", .dir [("a", .file "other")]), ("a.qml", .file "A \x7b \x7d")]

theorem exists_sampleTree : ∃ tree, (parse {} "A \x7b \x7d").result = .ok tree := by
  have hok : (parse {} "A \x7b \x7d").result.isOk = true := by decide +kernel
  cases hresult : (parse {} "A \x7b \x7d").result with
  | error e => simp [hresult, Except.isOk, Except.toBool] at hok
  | ok tree => exact ⟨tree, rfl⟩

/-- The workspace after a first call. -/
def calledOnce : Workspace := ((parseFile false "a" "a.qml").runIn { tree := sampleFiles }).2

/-- The first call saves the tree, and the second one takes it from the cache. -/
theorem parseFile_transparent_sample :
    Honest { tree := sampleFiles } ∧ Run { tree := sampleFiles } calledOnce ∧
      ((parseFile true "a" "a.qml").runIn calledOnce).1.toOption.map (·.isNew) = some false ∧
      ∃ tree, Holds calledOnce "a" "A \x7b \x7d" tree := by
  have hhonest : Honest { tree := sampleFiles } := honest_of_one_line (by decide +kernel)
  have hrun : Run { tree := sampleFiles } calledOnce := .call .start false "a" "a.qml"
  have hhit : ((parseFile true "a" "a.qml").runIn calledOnce).1.toOption.map (·.isNew) = some false := by
    decide +kernel
  refine ⟨hhonest, hrun, hhit, ?_⟩
  obtain ⟨tree, htree⟩ := exists_sampleTree
  have hread : calledOnce.tree.read "a.qml" = .ok "A \x7b \x7d" := by decide +kernel
  have hcall := (parseFile_transparent hhonest hrun true "a" "a.qml").answered _ tree hread htree
  obtain ⟨parsed, hresult, -, -, -, hholds, -⟩ | ⟨parsed, e, -, -, hresult, -⟩ := hcall
  · rw [hresult] at hhit
    exact ⟨parsed.tree, hholds (some.inj hhit)⟩
  · rw [hresult] at hhit
    cases hhit

def blockedFiles : FileTree := .dir [(".cache", .file ""), ("a.qml", .file "A \x7b \x7d")]

/-- Where nothing can be saved, a source that can be parsed is not answered. -/
theorem parseFile_blocked :
    (∃ tree, (parse {} "A \x7b \x7d").result = .ok tree) ∧
      ((parseFile true "a" "a.qml").runIn { tree := blockedFiles }).1 =
        .error (.notKept "a.qml" ⟨.notDirectory, ".cache/a"⟩) := by
  obtain ⟨tree, htree⟩ := exists_sampleTree
  refine ⟨⟨tree, htree⟩, ?_⟩
  have hread : blockedFiles.read "a.qml" = .ok "A \x7b \x7d" := by decide +kernel
  have hpath : ({} : Workspace).cache.path "a" = ".cache/a" := by decide +kernel
  have hlocate : blockedFiles.locate ".cache/a" = .error .notDirectory := by decide +kernel
  have hcached : ({} : Workspace).cache.read? blockedFiles "a" (sourceKey "A \x7b \x7d") = none := by
    rw [Cache.read?, hpath, FileTree.readExact, FileTree.find, hlocate]
    rfl
  have hkeep : ({} : Workspace).cache.keep blockedFiles "a" (sourceKey "A \x7b \x7d") tree =
      .error ⟨.notDirectory, ".cache/a"⟩ := by
    rw [Cache.keep, hpath, FileTree.write, hlocate]
    rfl
  obtain ⟨w₁, hcache, hfiles, hrun⟩ :=
    @parseFile_heard { tree := blockedFiles } "a" "a.qml" _ true hread hcached
  rw [hrun, runIn_keepOutcome_unkept htree (by rw [hcache, hfiles]; exact hkeep)]

end QmlScript.Compile
