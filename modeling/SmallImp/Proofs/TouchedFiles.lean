import SmallImp.Proofs.EmitRun

/-!
# The files that a command touches

A command writes one file at most. The emitter writes a document beside the source file, and a run that
is traced writes its trace, also if the run fails. Where nothing was read and parsed, or loaded, and
where nothing is traced, all files stay as they were.

* `FileTree.Written` — a tree after a text was written to the file of a path;
* `FileTree.ChangedBy` — a tree after what may be written was written, unless it could not be;
* `Options.Writes` — the path and the text of what the options have written;
* `Batch.run_written`, `Command.emit_written` — the traces of runs, and documents;
* `Command.touches_one_file` — what a command leaves of the files.
-/

namespace SmallImp

/-! ### Writing one file -/

namespace FileTree

variable {t t' t'' : FileTree} {p : Path} {text : String}

theorem AlikeAt.trans {here : List String} (h : AlikeAt here t t') (h' : AlikeAt here t' t'') :
    AlikeAt here t t'' :=
  ⟨h.content.trans h'.content, h.directory.trans h'.directory⟩

/-- The tree `t'` is `t` after a text was written to the file of a path: the path leads to the text, and
every other place is as it was. -/
structure Written (t t' : FileTree) (p : Path) (text : String) (place : List String) : Prop where
  found : t'.target p = .file place text.toUTF8
  others : ∀ other, other ≠ place → AlikeAt other t t'

theorem Written.trans {place : List String} {text' : String} (h : t.Written t' p text place)
    (h' : t'.Written t'' p text' place) : t.Written t'' p text' place :=
  ⟨h'.found, fun other hother => (h.others other hother).trans (h'.others other hother)⟩

theorem write_directory (h : t.target p = .directory) (text : String) :
    t.write p text = .error .directory := by
  rw [write, h]

/-- Writing to a path in a directory changes one file, if no directory is in its place. -/
theorem exists_written {root : String} {dirs there : List String} {name : String}
    (hname : IsPartName name) (henter : t.enter (start root) dirs = some there)
    (hfree : t.target ⟨root, dirs ++ [name]⟩ ≠ .directory) (text : String) :
    ∃ t', t.write ⟨root, dirs ++ [name]⟩ text = .ok t' ∧
      t.Written t' ⟨root, dirs ++ [name]⟩ text (there ++ [name]) := by
  obtain ⟨hwrite, hfound⟩ := write_entered hname henter hfree text
  exact ⟨_, hwrite, hfound, fun other hother => alikeAt_setFile (isDirectory_of_enter henter) hother _⟩

/-- The parts before the name of a file lead to a directory. -/
theorem enter_dropLast {path : List String} {content : ByteArray}
    (h : t.target p = .file path content) :
    ∃ there, t.enter (start p.root) p.parts.dropLast = some there := by
  obtain ⟨root, parts⟩ := p
  rw [target_eq] at h
  rcases List.eq_nil_or_concat' parts with rfl | ⟨dirs, name, rfl⟩
  · -- the directory in which paths start is always there
    have hstart : t.isDirectory (start root) := by
      unfold start
      split <;> rfl
    exact ⟨start root, by rw [List.dropLast_nil, enter, if_pos hstart]⟩
  · rw [List.dropLast_concat]
    exact enter_of_follow h

/-- The tree `t'` is `t` after one of the texts of `W` was written to the file of its path. -/
structure ChangedBy (W : Path → String → Prop) (t t' : FileTree) : Prop where
  written : ∀ p text, W p text → t.target p ≠ .directory → ∃ place, t.Written t' p text place
  /-- What cannot be written changes nothing. -/
  blocked : ∀ p text, W p text → t.target p = .directory → t' = t
  untouched : (∀ p text, ¬W p text) → t' = t

namespace ChangedBy

variable {W : Path → String → Prop}

theorem refl (h : ∀ p text, ¬W p text) : ChangedBy W t t :=
  ⟨fun p text hw => absurd hw (h p text), fun _ _ _ _ => rfl, fun _ => rfl⟩

theorem of_unique (hw : ∀ p' text', W p' text' ↔ p' = p ∧ text' = text)
    (hwritten : t.target p ≠ .directory → ∃ place, t.Written t' p text place)
    (hblocked : t.target p = .directory → t' = t) : ChangedBy W t t' where
  written := by
    intro p' text' hw' hfree
    obtain ⟨rfl, rfl⟩ := (hw p' text').mp hw'
    exact hwritten hfree
  blocked := by
    intro p' text' hw' hdirectory
    obtain ⟨rfl, rfl⟩ := (hw p' text').mp hw'
    exact hblocked hdirectory
  untouched := fun h => absurd ((hw p text).mpr ⟨rfl, rfl⟩) (h p text)

/-- At most one place is not as it was. -/
theorem exists_place (h : ChangedBy W t t') :
    ∃ place, ∀ other, other ≠ place → AlikeAt other t t' := by
  by_cases hw : ∃ p text, W p text ∧ t.target p ≠ .directory
  · obtain ⟨p, text, hw, hfree⟩ := hw
    obtain ⟨place, hplace⟩ := h.written p text hw hfree
    exact ⟨place, hplace.others⟩
  · obtain rfl : t' = t := by
      by_cases hnone : ∀ p text, ¬W p text
      · exact h.untouched hnone
      · push Not at hnone hw
        obtain ⟨p, text, hp⟩ := hnone
        exact h.blocked p text hp (hw p text hp)
    exact ⟨[], fun _ _ => ⟨rfl, rfl⟩⟩

end ChangedBy

end FileTree

/-! ### Traces -/

namespace Batch

variable {streams : Streams} {i : Interpreter streams} {files : FileTree} {action : Run Unit}

theorem run_untraced (hi : i.verbosity = 0) : (run i files action).files = files := by
  simp only [run, writeTrace, if_pos hi]

theorem run_blocked (hi : i.verbosity ≠ 0) (h : files.target tracePath = .directory) :
    (run i files action).files = files := by
  simp only [run, writeTrace, if_neg hi, FileTree.write_directory h]
  rfl

/-- A run that is traced leaves its trace, however it ends. -/
theorem run_written (hi : i.verbosity ≠ 0) (h : files.target tracePath ≠ .directory) :
    files.Written (run i files action).files tracePath
      (Codes.characters (outcome action).2.log.traceText) tracePath.key := by
  have hname : IsPartName "debug.txt" := isPartName_of_length (by decide)
  have henter : ∀ t : FileTree, t.enter (FileTree.start "") [] = some [] := fun _ => rfl
  -- the file is emptied before the run, and filled by it
  obtain ⟨opened, hopen, hopened⟩ := FileTree.exists_written hname (henter files) h ""
  have hfree : opened.target tracePath ≠ .directory := by
    rw [show opened.target tracePath = _ from hopened.found]
    simp
  obtain ⟨closed, hclose, hclosed⟩ := FileTree.exists_written hname (henter opened) hfree
    (Codes.characters (outcome action).2.log.traceText)
  have hopen' : files.write tracePath "" = .ok opened := hopen
  have hclose' : opened.write tracePath (Codes.characters (outcome action).2.log.traceText) =
      .ok closed := hclose
  simp only [run, writeTrace, if_neg hi, hopen', hclose']
  exact hopened.trans hclosed

end Batch

/-! ### Commands -/

/-- The trace that a command leaves of a run. -/
def Options.traceText (options : Options) (action : Interpreter .utf8 → Run Unit) : String :=
  let (_, w) := Batch.outcome (action (Batch.interpreter options.verbosity options.report))
  Codes.characters w.log.traceText

/-- What a command with these options writes: the path of the file, and its text. -/
inductive Options.Writes [Host] (options : Options) (files : FileTree) : Path → String → Prop where
  /-- The document of a source file that was read and parsed, however much is traced; all of it, if the
  literals of the program are plain. -/
  | document {name source p} (hmode : Command.given? options.emit = some name)
      (hread : files.readText (.ofText name) = .ok source) (hparse : Source.parse source = .ok p) :
      Writes options files (.ofText (Path.stem name ++ ".ast.json"))
        (Codes.characters (Command.written p))
  /-- The trace of a tree that was read and loaded, however its run ends. -/
  | treeTrace {name text node} (hemit : Command.given? options.emit = none)
      (hmode : Command.given? options.tree = some name) (hread : files.readText (.ofText name) = .ok text)
      (hload : Node.ofText text = .ok node) (htraced : 0 < options.verbosity) :
      Writes options files (.ofText "debug.txt") (options.traceText fun i => i.runNode node)
  /-- The trace of a source file that was read and parsed, however its run ends. -/
  | sourceTrace {name source p} (hemit : Command.given? options.emit = none)
      (htree : Command.given? options.tree = none) (hmode : Command.given? options.program = some name)
      (hread : files.readText (.ofText name) = .ok source) (hparse : Source.parse source = .ok p)
      (htraced : 0 < options.verbosity) :
      Writes options files (.ofText "debug.txt") (options.traceText fun i => i.run p)

namespace Command

section

variable [Host] {options : Options} {files : FileTree}

/-- A source file is read and parsed, or the command ends without touching a file. -/
theorem readSource_cases (files : FileTree) (path : Path) :
    (∃ source p, files.readText path = .ok source ∧ Source.parse source = .ok p ∧
      readSource files path = .ok p) ∨
    (∃ report, readSource files path = .error report ∧ report.files = files) ∧
      ∀ source p, files.readText path = .ok source → Source.parse source ≠ .ok p := by
  cases hread : files.readText path with
  | error fault =>
    refine .inr ⟨?_, by simp⟩
    rw [readSource]
    split
    · exact ⟨_, by rw [hread], rfl⟩
    · exact ⟨_, rfl, rfl⟩
  | ok source =>
    cases hparse : Source.parse source with
    | ok p => exact .inl ⟨source, p, rfl, hparse, readSource_of_readText hread hparse⟩
    | error fault =>
      refine .inr ⟨?_, by rintro _ p ⟨⟩; simp [hparse]⟩
      cases hmessage : fault.message? with
      | some message => exact ⟨_, readSource_of_fault hread hparse hmessage, rfl⟩
      | none => exact ⟨_, readSource_of_unreported hread hparse hmessage, rfl⟩

/-- A tree file is read and loaded, or the command ends without touching a file. -/
theorem runTree_cases (options : Options) (files : FileTree) (path : Path) :
    (∃ text node, files.readText path = .ok text ∧ Node.ofText text = .ok node ∧
      runTree options files path = execute options files fun i => i.runNode node) ∨
    (runTree options files path).files = files ∧
      ∀ text node, files.readText path = .ok text → Node.ofText text ≠ .ok node := by
  cases hread : files.readText path with
  | error fault =>
    refine .inr ⟨?_, by simp⟩
    rw [runTree]
    split
    · rw [hread]
      rfl
    · rfl
  | ok text =>
    obtain ⟨_, _, htarget, -⟩ := FileTree.target_of_readText hread
    have hrun : runTree options files path = runDocument options files path text := by
      rw [runTree, FileTree.has_of_target htarget, if_pos rfl, hread]
    rw [hrun, runDocument]
    cases hload : Node.ofText text with
    | ok node => exact .inl ⟨text, node, rfl, hload, rfl⟩
    | error problem =>
      refine .inr ⟨?_, by rintro _ node ⟨⟩; simp [hload]⟩
      cases problem with
      | tree fault => cases fault <;> rfl
      | _ => rfl

omit [Host] in
theorem execute_files (options : Options) (files : FileTree) (action : Interpreter .utf8 → Run Unit) :
    (execute options files action).files =
      (Batch.run (Batch.interpreter options.verbosity options.report) files
        (action (Batch.interpreter options.verbosity options.report))).files := by
  simp only [execute]
  split <;> rfl

omit [Host] in
/-- A run writes its trace, if it is traced, and nothing else. -/
theorem execute_changed {W : Path → String → Prop} {action : Interpreter .utf8 → Run Unit}
    (hw : ∀ p text, W p text ↔
      0 < options.verbosity ∧ p = Batch.tracePath ∧ text = options.traceText action) :
    files.ChangedBy W (execute options files action).files := by
  rw [execute_files]
  by_cases htraced : options.verbosity = 0
  · rw [Batch.run_untraced htraced]
    refine .refl fun p text h => ?_
    exact ((hw p text).mp h).1.ne' htraced
  · refine .of_unique (fun p text => ?_) (fun hfree => ⟨_, Batch.run_written htraced hfree⟩)
      (Batch.run_blocked htraced)
    rw [hw, and_iff_right (Nat.pos_of_ne_zero htraced)]
    rfl

section Emitted

variable {name source : String} {p : Program} (hread : files.readText (.ofText name) = .ok source)
  (hparse : Source.parse source = .ok p)
include hread hparse

theorem emit_blocked (h : files.target (.ofText (Path.stem name ++ ".ast.json")) = .directory) :
    (emit files (.ofText name)).files = files := by
  rw [← Path.addToName_eq name (by decide) (by decide)] at h
  simp only [emit, readSource_of_readText hread hparse, FileTree.write_directory h]
  rfl

/-- The emitter leaves the document of a source file beside it. -/
theorem emit_written (h : files.target (.ofText (Path.stem name ++ ".ast.json")) ≠ .directory) :
    ∃ place, files.Written (emit files (.ofText name)).files
      (.ofText (Path.stem name ++ ".ast.json")) (Codes.characters (written p)) place := by
  obtain ⟨_, _, htarget, -⟩ := FileTree.target_of_readText hread
  -- the document goes to the directory of the source file, which is there
  obtain ⟨there, henter⟩ := FileTree.enter_dropLast htarget
  have hname : IsPartName ((Path.ofText name).parts.getLast?.getD "" ++ ".ast.json") := by
    refine isPartName_of_length ?_
    rw [String.length_append]
    exact Nat.lt_add_left _ (by decide)
  rw [← Path.addToName_eq name (by decide) (by decide)] at h ⊢
  obtain ⟨after, hwrite, hwritten⟩ := FileTree.exists_written hname henter h
    (Codes.characters (written p))
  have hwrite' : files.write ((Path.ofText name).addToName ".ast.json")
      (Codes.characters (written p)) = .ok after := hwrite
  have hfiles : (emit files (.ofText name)).files = after := by
    simp only [emit, readSource_of_readText hread hparse, hwrite']
    split <;> rfl
  rw [hfiles]
  exact ⟨_, hwritten⟩

end Emitted

/-! ### The three modes -/

section Modes

variable {name : String}

theorem emit_changed (hmode : given? options.emit = some name) :
    files.ChangedBy (options.Writes files) (emit files (.ofText name)).files := by
  have hw : ∀ path text, options.Writes files path text ↔ ∃ source p,
      files.readText (.ofText name) = .ok source ∧ Source.parse source = .ok p ∧
        path = .ofText (Path.stem name ++ ".ast.json") ∧ text = Codes.characters (written p) := by
    intro path text
    constructor
    · intro h
      cases h with
      | document hmode' hread hparse =>
        cases hmode.symm.trans hmode'
        exact ⟨_, _, hread, hparse, rfl, rfl⟩
      | treeTrace hemit | sourceTrace hemit =>
        -- the emitter does not trace
        cases hmode.symm.trans hemit
    · rintro ⟨source, p, hread, hparse, rfl, rfl⟩
      exact .document hmode hread hparse
  rcases readSource_cases files (.ofText name) with
    ⟨source, p, hread, hparse, -⟩ | ⟨⟨report, hsource, hfiles⟩, hnone⟩
  · refine .of_unique (fun path text => ?_) (emit_written hread hparse) (emit_blocked hread hparse)
    rw [hw]
    simp [hread, hparse]
  · rw [emit, hsource, hfiles]
    refine .refl fun path text h => ?_
    obtain ⟨source, p, hread, hparse, -⟩ := (hw path text).mp h
    exact hnone source p hread hparse

theorem runTree_changed (hemit : given? options.emit = none)
    (hmode : given? options.tree = some name) :
    files.ChangedBy (options.Writes files) (runTree options files (.ofText name)).files := by
  have hw : ∀ path text, options.Writes files path text ↔ ∃ document node,
      files.readText (.ofText name) = .ok document ∧ Node.ofText document = .ok node ∧
        0 < options.verbosity ∧ path = Batch.tracePath ∧
        text = options.traceText fun i => i.runNode node := by
    intro path text
    constructor
    · intro h
      cases h with
      | document hmode' => cases hemit.symm.trans hmode'
      | treeTrace _ hmode' hread hload htraced =>
        cases hmode.symm.trans hmode'
        exact ⟨_, _, hread, hload, htraced, rfl, rfl⟩
      | sourceTrace _ htree => cases hmode.symm.trans htree
    · rintro ⟨document, node, hread, hload, htraced, rfl, rfl⟩
      exact .treeTrace hemit hmode hread hload htraced
  rcases runTree_cases options files (.ofText name) with
    ⟨document, node, hread, hload, hrun⟩ | ⟨hfiles, hnone⟩
  · rw [hrun]
    refine execute_changed fun path text => ?_
    rw [hw]
    simp [hread, hload]
  · rw [hfiles]
    refine .refl fun path text h => ?_
    obtain ⟨document, node, hread, hload, -⟩ := (hw path text).mp h
    exact hnone document node hread hload

theorem runSource_changed (hemit : given? options.emit = none) (htree : given? options.tree = none)
    (hmode : given? options.program = some name) :
    files.ChangedBy (options.Writes files) (runSource options files (.ofText name)).files := by
  have hw : ∀ path text, options.Writes files path text ↔ ∃ source p,
      files.readText (.ofText name) = .ok source ∧ Source.parse source = .ok p ∧
        0 < options.verbosity ∧ path = Batch.tracePath ∧
        text = options.traceText fun i => i.run p := by
    intro path text
    constructor
    · intro h
      cases h with
      | document hmode' => cases hemit.symm.trans hmode'
      | treeTrace _ hmode' => cases htree.symm.trans hmode'
      | sourceTrace _ _ hmode' hread hparse htraced =>
        cases hmode.symm.trans hmode'
        exact ⟨_, _, hread, hparse, htraced, rfl, rfl⟩
    · rintro ⟨source, p, hread, hparse, htraced, rfl, rfl⟩
      exact .sourceTrace hemit htree hmode hread hparse htraced
  rcases readSource_cases files (.ofText name) with
    ⟨source, p, hread, hparse, hsource⟩ | ⟨⟨report, hsource, hfiles⟩, hnone⟩
  · rw [runSource, hsource]
    refine execute_changed fun path text => ?_
    rw [hw]
    simp [hread, hparse]
  · rw [runSource, hsource, hfiles]
    refine .refl fun path text h => ?_
    obtain ⟨source, p, hread, hparse, -⟩ := (hw path text).mp h
    exact hnone source p hread hparse

theorem dispatch_changed (options : Options) (files : FileTree) :
    files.ChangedBy (options.Writes files) (dispatch options files).files := by
  cases hemit : given? options.emit with
  | some name =>
    simp only [dispatch, hemit]
    exact emit_changed hemit
  | none =>
    cases htree : given? options.tree with
    | some name =>
      simp only [dispatch, hemit, htree]
      exact runTree_changed hemit htree
    | none =>
      cases hprogram : given? options.program with
      | some name =>
        simp only [dispatch, hemit, htree, hprogram]
        exact runSource_changed hemit htree hprogram
      | none =>
        simp only [dispatch, hemit, htree, hprogram]
        refine .refl fun path text h => ?_
        cases h with
        | document hmode => cases hemit.symm.trans hmode
        | treeTrace _ hmode => cases htree.symm.trans hmode
        | sourceTrace _ _ hmode => cases hprogram.symm.trans hmode

end Modes

/-- What a command writes: the path of the file, and its text. Arguments that cannot be used, or that ask
for help, have nothing written. -/
def Writes (args : List String) (files : FileTree) (path : Path) (text : String) : Prop :=
  ∃ options, Options.parse args = .ok (some options) ∧ options.Writes files path text

/-- **A command touches one file at most.** What it writes is the document of a source file that was read
and parsed, or the trace of a program that was read and parsed, or loaded, if anything is traced. The
file then holds the text, and every other place is as it was. If nothing is to be written, or a directory
is in the place of the file, all files are as they were. The name of a document is that of its source file
with an ending; slashes and single dots at the end of the name do not count. -/
theorem touches_one_file (args : List String) (files : FileTree) :
    files.ChangedBy (Writes args files) (run args files).files ∧
      (∃ place, ∀ other, other ≠ place → FileTree.AlikeAt other files (run args files).files) ∧
      ∀ name, NamesFile name → Path.stem name = name := by
  have hchanged : files.ChangedBy (Writes args files) (run args files).files := by
    rw [run]
    cases hargs : Options.parse args with
    | error fault =>
      refine .refl ?_
      rintro path text ⟨options, hoptions, -⟩
      cases hargs.symm.trans hoptions
    | ok result =>
      cases result with
      | none =>
        refine .refl ?_
        rintro path text ⟨options, hoptions, -⟩
        cases hargs.symm.trans hoptions
      | some options =>
        have hw : Writes args files = options.Writes files := by
          funext path text
          simp [Writes, hargs]
        rw [hw]
        exact dispatch_changed options files
  exact ⟨hchanged, hchanged.exists_place, fun name => Path.stem_of_namesFile⟩

end

section

open Host

/-- A text with a program whose run fails. -/
def zeroText : String := "main\x7bint x=1/0;\x7d"

/-- The program of `zeroText`. -/
def zeroProgram : Program :=
  ⟨[], .main [.declare (.str "int") (.str "x") (some (.binary (.lit (.int 1)) .div (.lit (.int 0))))]⟩

theorem parse_zeroText : Source.parse zeroText = .ok zeroProgram := by cbv

theorem zeroProgram_plainLiterals : zeroProgram.PlainLiterals := by
  refine ⟨nofun, ?_⟩
  simp [zeroProgram, Block.Each, Stmt.AllEach, Stmt.Each, Expr.Each, Literal.Plain]

/-- A document and the trace of a run that fails are written; without `-v` nothing is. -/
theorem touches_one_file_zeroText :
    let files := oneFile ["lib", "start.timp"] zeroText
    (∃ place, files.Written (run ["--emit-ast", "lib/start.timp"] files).files
      (.ofText ("lib/start.timp" ++ ".ast.json")) (Codes.characters (document zeroProgram)) place) ∧
    ((run ["-v", "lib/start.timp"] files).exit = .status 1 ∧
      ∃ text place, files.Written (run ["-v", "lib/start.timp"] files).files
        (.ofText "debug.txt") text place) ∧
    (run ["lib/start.timp"] files).files = files := by
  intro files
  have hname : Argument.IsName "lib/start.timp" := rfl
  have hfile : NamesFile "lib/start.timp" := by decide
  have hread : files.readText (.ofText "lib/start.timp") = .ok zeroText :=
    readText_oneFile rfl (by decide)
  have hemit := Options.parse_emit hname
  have hrun := Options.parse_program [] hname
  have htrace := Options.parse_program [.verbose 0] hname
  refine ⟨?_, ⟨?_, ?_⟩, ?_⟩
  · obtain ⟨hchanged, -, hstem⟩ := touches_one_file ["--emit-ast", "lib/start.timp"] files
    have hwrites : Writes ["--emit-ast", "lib/start.timp"] files
        (.ofText (Path.stem "lib/start.timp" ++ ".ast.json"))
        (Codes.characters (written zeroProgram)) :=
      ⟨_, hemit, .document rfl hread parse_zeroText⟩
    rw [hstem _ hfile, (written_eq_document parse_zeroText zeroProgram_plainLiterals).1] at hwrites
    exact hchanged.written _ _ hwrites (target_oneFile_ne_directory hfile hread)
  · have hexit := run_program hname rfl [.verbose 0] files
    rw [runSource, readSource_of_readText hread parse_zeroText] at hexit
    exact congrArg Report.exit hexit
  · have hwrites : Writes ["-v", "lib/start.timp"] files (.ofText "debug.txt") _ :=
      ⟨_, htrace, .sourceTrace rfl rfl rfl hread parse_zeroText (by decide)⟩
    refine ⟨_, (touches_one_file ["-v", "lib/start.timp"] files).1.written _ _ hwrites ?_⟩
    have hfree : files.target (.ofText "debug.txt") = .missing ["debug.txt"] := rfl
    rw [hfree]
    simp
  · refine (touches_one_file ["lib/start.timp"] files).1.untouched ?_
    rintro path text ⟨options, hoptions, hwrites⟩
    cases hrun.symm.trans hoptions
    cases hwrites with
    | document hmode => cases hmode
    | treeTrace _ hmode => cases hmode
    | sourceTrace _ _ _ _ _ htraced => exact absurd htraced (by decide)

/-- The document of a file whose name is given with a slash at its end is not the file that this name
with the ending leads to. -/
theorem emitted_under_other_name :
    let files := oneFile ["a"] emptyText
    let after := (run ["--emit-ast", "a/"] files).files
    ¬∀ place, after.content? place ≠ files.content? place →
      ∃ content, after.target (.ofText ("a/" ++ ".ast.json")) = .file place content := by
  intro files after h
  have hafter : after = ⟨[(["a"], emptyText.toUTF8),
      (["a.ast.json"], (Codes.characters (document ⟨[], .main []⟩)).toUTF8)]⟩ :=
    congrArg Report.files emit_slash
  have hnew : after.content? ["a.ast.json"] ≠ files.content? ["a.ast.json"] := by
    have hnone : files.content? ["a.ast.json"] = none := rfl
    rw [hafter, hnone]
    simp [FileTree.content?]
  obtain ⟨content, hfound⟩ := h ["a.ast.json"] hnew
  -- the other name leads into a file
  have htarget : after.target (.ofText ("a/" ++ ".ast.json")) = .notDirectory := by
    rw [hafter]
    rfl
  cases htarget.symm.trans hfound

end

end Command

end SmallImp
