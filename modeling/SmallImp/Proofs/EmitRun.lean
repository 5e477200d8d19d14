import SmallImp.Proofs.Arguments
import SmallImp.Proofs.FilePlaces
import SmallImp.Proofs.ProgramDocument
import SmallImp.Proofs.SourceSorts

/-!
# Emitting a tree and running it

A source file can be run at once, or its tree can be emitted into a document beside it and the document
be run. Both ways end alike, print the same and leave the same trace.

* `FileTree.AlikeAt` — trees that do not differ at a place;
* `Report.Agree` — commands that end alike, print the same and leave the same trace;
* `Command.execute_agree` — a run sees no more of the files than the place of its trace;
* `Command.run_emitted_agree` — running an emitted tree is running its source file.
-/

namespace SmallImp

/-! ### The place of a trace -/

namespace FileTree

/-- Two trees that have the same file, or the same directory, at a place. -/
structure AlikeAt (here : List String) (t t' : FileTree) : Prop where
  content : t.content? here = t'.content? here
  directory : t.isDirectory here = t'.isDirectory here

theorem AlikeAt.occupied {here : List String} {t t' : FileTree} (h : AlikeAt here t t') :
    t.occupied here = t'.occupied here := by
  rw [FileTree.occupied, FileTree.occupied, h.content, h.directory]

/-- Setting the file at a place keeps trees alike there. -/
theorem AlikeAt.setFile {here : List String} {t t' : FileTree} (h : AlikeAt here t t')
    (content : ByteArray) :
    AlikeAt here ⟨FileTree.setFile here content t.files⟩
      ⟨FileTree.setFile here content t'.files⟩ := by
  constructor
  · rw [content?_setFile, content?_setFile, if_pos rfl, if_pos rfl]
  · rw [isDirectory_setFile, isDirectory_setFile]
    exact congrArg (· || _) h.directory

theorem mem_of_content? {t : FileTree} {path : List String} {content : ByteArray}
    (h : t.content? path = some content) : ∃ file ∈ t.files, file.1 = path := by
  obtain ⟨file, hfile, -⟩ := Option.map_eq_some_iff.mp h
  exact ⟨file, List.mem_of_find?_eq_some hfile, by simpa using List.find?_some hfile⟩

/-- What a directory lies in is a directory. -/
theorem isDirectory_above {t : FileTree} {here there : List String} (h : here <+: there)
    (hthere : t.isDirectory there) : t.isDirectory here := by
  rw [isDirectory, Bool.or_eq_true] at hthere ⊢
  rcases hthere with habove | hbelow
  · left
    rw [isAbove, Bool.or_eq_true, beq_iff_eq, List.all_eq_true] at habove ⊢
    rcases habove with rfl | hall
    · obtain ⟨rest, hrest⟩ := h
      rcases List.append_eq_singleton_iff.mp hrest with ⟨rfl, -⟩ | ⟨rfl, -⟩
      · exact .inr (by simp)
      · exact .inl rfl
    · exact .inr fun part hpart => hall part (h.subset hpart)
  · right
    obtain ⟨file, hmem, hfile⟩ := List.any_eq_true.mp hbelow
    rw [Bool.and_eq_true, List.isPrefixOf_iff_prefix, bne_iff_ne] at hfile
    refine List.any_eq_true.mpr ⟨file, hmem, ?_⟩
    rw [Bool.and_eq_true, List.isPrefixOf_iff_prefix, bne_iff_ne]
    refine ⟨h.trans hfile.1, fun heq => hfile.2 ?_⟩
    exact (h.eq_of_length_le (heq ▸ hfile.1.length_le)) ▸ heq

/-- A file lies in a directory. -/
theorem isDirectory_of_content? {t : FileTree} {there : List String} {name : String}
    {content : ByteArray} (h : t.content? (there ++ [name]) = some content) : t.isDirectory there := by
  obtain ⟨file, hmem, hfile⟩ := mem_of_content? h
  rw [isDirectory, Bool.or_eq_true]
  refine .inr (List.any_eq_true.mpr ⟨file, hmem, ?_⟩)
  rw [hfile, Bool.and_eq_true, List.isPrefixOf_iff_prefix, bne_iff_ne]
  exact ⟨List.prefix_append there [name], by simp⟩

/-- A file that is set in a directory is seen at no other place. -/
theorem alikeAt_setFile {t : FileTree} {there here : List String} {name : String}
    (hthere : t.isDirectory there) (hhere : here ≠ there ++ [name]) (content : ByteArray) :
    AlikeAt here t ⟨FileTree.setFile (there ++ [name]) content t.files⟩ := by
  constructor
  · rw [content?_setFile, if_neg hhere]
  · rw [isDirectory_setFile]
    cases hbelow : here.isPrefixOf (there ++ [name]) with
    | false => simp
    | true =>
      have habove : here <+: there := by
        rw [ List.isPrefixOf_iff_prefix, List.prefix_concat_iff] at hbelow
        exact hbelow.resolve_left hhere
      rw [isDirectory_above habove hthere, Bool.true_or]

end FileTree

namespace Batch

theorem target_tracePath (t : FileTree) : t.target tracePath = t.follow tracePath.key [] := by
  have hroot : t.isDirectory [] := rfl
  exact FileTree.follow_cons hroot "debug.txt" []

/-- Writing the trace fails alike, or leaves trees that are alike at the place of the trace. -/
theorem writeTrace_alike {t t' : FileTree} (h : FileTree.AlikeAt tracePath.key t t')
    (verbosity : Nat) (text : String) :
    (∃ fault, writeTrace verbosity t text = .error fault ∧
      writeTrace verbosity t' text = .error fault) ∨
    ∃ u u', writeTrace verbosity t text = .ok u ∧ writeTrace verbosity t' text = .ok u' ∧
      FileTree.AlikeAt tracePath.key u u' := by
  by_cases hsilent : verbosity = 0
  · exact Or.inr ⟨t, t', if_pos hsilent, if_pos hsilent, h⟩
  · have hkey : tracePath.key ≠ [] := by decide
    simp only [writeTrace, if_neg hsilent, FileTree.write_eq (target_tracePath _) hkey, ← h.occupied]
    cases t.occupied tracePath.key with
    | true => exact Or.inl ⟨_, rfl, rfl⟩
    | false => exact Or.inr ⟨_, _, rfl, rfl, h.setFile text.toUTF8⟩

/-- A run sees no more of the files than the place of its trace. -/
theorem run_alike {streams : Streams} {t t' : FileTree} (h : FileTree.AlikeAt tracePath.key t t')
    (i : Interpreter streams) (action : Run Unit) :
    (run i t action).result = (run i t' action).result ∧
      (run i t action).world = (run i t' action).world ∧
      FileTree.AlikeAt tracePath.key (run i t action).files (run i t' action).files := by
  unfold run
  rcases writeTrace_alike h i.verbosity "" with ⟨fault, hopen, hopen'⟩ | ⟨u, u', hopen, hopen', hu⟩
  · rw [hopen, hopen']
    exact ⟨rfl, rfl, h⟩
  · rw [hopen, hopen']
    rcases writeTrace_alike hu i.verbosity (Codes.characters (outcome action).2.log.traceText) with
      ⟨fault, hclose, hclose'⟩ | ⟨v, v', hclose, hclose', hv⟩
    · simp only [hclose, hclose']
      exact ⟨trivial, trivial, hu⟩
    · simp only [hclose, hclose']
      exact ⟨trivial, trivial, hv⟩

end Batch

/-- Two commands that end alike, print the same and leave the same trace. -/
structure Report.Agree (r r' : Report) : Prop where
  exit : r.exit = r'.exit
  out : r.out = r'.out
  err : r.err = r'.err
  trace : r.files.content? Batch.tracePath.key = r'.files.content? Batch.tracePath.key

theorem Report.Agree.symm {r r' : Report} (h : r.Agree r') : r'.Agree r :=
  ⟨h.exit.symm, h.out.symm, h.err.symm, h.trace.symm⟩

/-! ### Sources and documents -/

namespace FileTree

theorem target_of_readText {t : FileTree} {p : Path} {text : String}
    (h : t.readText p = .ok text) :
    ∃ path content, t.target p = .file path content ∧ decode content = .ok text := by
  rw [readText] at h
  cases htarget : t.target p with
  | file path content => exact ⟨path, content, rfl, by rwa [htarget] at h⟩
  | _ => rw [htarget] at h; cases h

theorem has_of_target {t : FileTree} {p : Path} {path : List String} {content : ByteArray}
    (h : t.target p = .file path content) : t.has p = true := by
  rw [has, h]

end FileTree

theorem NamesFile.isEmpty_eq_false {f : String} (h : NamesFile f) : f.isEmpty = false := by
  obtain ⟨c, hc, -⟩ := h.exists_notSlash
  rw [String.isEmpty_eq_false_iff]
  rintro rfl
  cases hc

namespace Command

theorem execute_agree {t t' : FileTree} (h : FileTree.AlikeAt Batch.tracePath.key t t')
    (options : Options) (action : Interpreter .utf8 → Run Unit) :
    (execute options t action).Agree (execute options t' action) := by
  obtain ⟨hresult, hworld, hfiles⟩ :=
    Batch.run_alike h (Batch.interpreter options.verbosity options.report)
      (action (Batch.interpreter options.verbosity options.report))
  unfold execute
  simp only [← hresult, ← hworld]
  split <;> exact ⟨rfl, rfl, rfl, hfiles.content⟩

theorem given?_some {f : String} (h : f.isEmpty = false) : given? (some f) = some f := by
  rw [given?, h]
  rfl

section Modes

variable [Host] {f : String} (hname : Argument.IsName f) (hempty : f.isEmpty = false)
include hname hempty

theorem run_program (switches : List Switch) (files : FileTree) :
    run (switches.map Switch.text ++ [f]) files =
      runSource { Switch.setAll switches .standard with program := some f } files (.ofText f) := by
  obtain ⟨hemit, htree, -⟩ := Switch.setAll_files switches .standard
  rw [run, Options.parse_program switches hname]
  simp only [dispatch, hemit, htree, given?_some hempty]
  rfl

theorem run_tree (switches : List Switch) (files : FileTree) :
    run (switches.map Switch.text ++ ["--ast", f]) files =
      runTree { Switch.setAll switches .standard with tree := some f } files (.ofText f) := by
  obtain ⟨hemit, -, -⟩ := Switch.setAll_files switches .standard
  rw [run, Options.parse_tree switches hname]
  simp only [dispatch, hemit, given?_some hempty]
  rfl

theorem run_emit (files : FileTree) : run ["--emit-ast", f] files = emit files (.ofText f) := by
  rw [run, Options.parse_emit hname]
  simp only [dispatch, given?_some hempty]

end Modes

theorem readSource_of_readText [Host] {files : FileTree} {path : Path} {source : String}
    (h : files.readText path = .ok source) {p : Program} (hparse : Source.parse source = .ok p) :
    readSource files path = .ok p := by
  obtain ⟨_, _, htarget, -⟩ := FileTree.target_of_readText h
  rw [readSource, FileTree.has_of_target htarget, if_pos rfl, h]
  simp only [hparse]

theorem failed_ofString (files : FileTree) (message : String) :
    failed files (Codes.ofString message) = ⟨.status 1, [], message ++ "\n", files⟩ := by
  rw [failed, Codes.escaped_ofString]

theorem readSource_of_fault [Host] {files : FileTree} {path : Path} {source : String}
    (h : files.readText path = .ok source) {fault : Source.Fault} {message : String}
    (hparse : Source.parse source = .error fault) (hfault : fault.message? = some message) :
    readSource files path = .error (failed files ("Syntax error: " ++ message)) := by
  obtain ⟨_, _, htarget, -⟩ := FileTree.target_of_readText h
  rw [readSource, FileTree.has_of_target htarget, if_pos rfl, h]
  simp only [hparse, hfault]

theorem readSource_of_unreported [Host] {files : FileTree} {path : Path} {source : String}
    (h : files.readText path = .ok source) {fault : Source.Fault}
    (hparse : Source.parse source = .error fault) (hfault : fault.message? = none) :
    readSource files path = .error (crashed files (.source fault)) := by
  obtain ⟨_, _, htarget, -⟩ := FileTree.target_of_readText h
  rw [readSource, FileTree.has_of_target htarget, if_pos rfl, h]
  simp only [hparse, hfault]

/-- A name that ends in another letter is not that of a document. -/
theorem document_ne {other : String} (h : other.toList.getLast? ≠ some 'n') (name : String) :
    name ++ ".ast.json" ≠ other := by
  rintro rfl
  exact h (by simp)

/-- The trace is not in the place of a document. -/
theorem tracePath_ne_document (there : List String) (name : String) :
    Batch.tracePath.key ≠ there ++ [name ++ ".ast.json"] := by
  intro h
  have hkey : Batch.tracePath.key = ["debug.txt"] := by decide
  have hlast : "debug.txt" = name ++ ".ast.json" := by
    simpa [hkey] using congrArg List.getLast? h
  exact document_ne (by decide) name hlast.symm

/-- The whole document of a program without surrogates is written. -/
theorem written_eq_document [Host] {source : String} {p : Program} (h : Source.parse source = .ok p)
    (hp : p.PlainLiterals) : written p = document p ∧ (document p).isPlain = true := by
  have hwritable := Program.toJson_writable (Source.parse_wellSorted h) (Source.parse_plain h hp)
  exact ⟨Json.written_eq_render hwritable, Json.isPlain_render hwritable⟩

/-- Emitting the tree of a source file without surrogates leaves its document beside it, and the place
of the trace as it was. -/
theorem emit_document [Host] {files : FileTree} {f source : String} (hfile : NamesFile f)
    (hread : files.readText (.ofText f) = .ok source)
    (hfree : files.target (.ofText (f ++ ".ast.json")) ≠ .directory) {p : Program}
    (hparse : Source.parse source = .ok p) (hp : p.PlainLiterals) :
    (emit files (.ofText f)).exit = .status 0 ∧
      (emit files (.ofText f)).files.readText (.ofText (f ++ ".ast.json")) =
        .ok (Codes.characters (document p)) ∧
      FileTree.AlikeAt Batch.tracePath.key files (emit files (.ofText f)).files := by
  obtain ⟨hwritten, hplain⟩ := written_eq_document hparse hp
  obtain ⟨root, dirs, name, hpart, hbeside, hpath, hdocument⟩ :=
    Path.ofText_append hfile ".ast.json" (by decide) (by decide)
  obtain ⟨path, content, htarget, -⟩ := FileTree.target_of_readText hread
  rw [hdocument] at hfree ⊢
  rw [emit, readSource_of_readText hread hparse]
  rw [hpath] at htarget ⊢
  obtain ⟨there, rfl, hcontent, hwrite, hfound⟩ :=
    FileTree.write_beside hpart hbeside htarget hfree (Codes.characters (document p))
  simp only [Path.addToName_append, hwritten, hwrite, if_pos hplain]
  refine ⟨trivial, ?_, ?_⟩
  · rw [FileTree.readText, hfound]
    exact FileTree.decode_document p
  · exact FileTree.alikeAt_setFile (FileTree.isDirectory_of_content? hcontent)
      (tracePath_ne_document there name) _

/-- The document of a well-sorted program is run as the program. -/
theorem runTree_document [Host] {files : FileTree} {path : Path} {p : Program} (h : p.WellSorted)
    (hp : p.Plain) (hdepth : p.nesting ≤ Host.nesting)
    (hread : files.readText path = .ok (Codes.characters (document p))) (options : Options) :
    runTree options files path = execute options files fun i => i.run p := by
  obtain ⟨_, _, htarget, -⟩ := FileTree.target_of_readText hread
  rw [runTree, FileTree.has_of_target htarget, if_pos rfl, hread]
  simp only [runDocument, Node.ofText_document h hp hdepth, Program.runNode_toNode h]

/-- **Running an emitted tree is running its source file.** The file has a name that is read as the name
of a program and is neither a lone dash nor a negative number, and no directory is in the place of its
document. If the file has a program without surrogates in its literals, then the tree is emitted, and
running it agrees with running the file, unless the document is nested more deeply than the host can
read. If the file is rejected, then nothing is emitted, with the same message. -/
theorem run_emitted_agree [Host] {files : FileTree} {f source : String}
    (hread : files.readText (.ofText f) = .ok source) (hfile : NamesFile f)
    (hname : Argument.IsName f) (hdash : f ≠ "-")
    (hnumber : Argument.isNegativeNumber f.toList = false)
    (hfree : files.target (.ofText (f ++ ".ast.json")) ≠ .directory) (switches : List Switch) :
    let direct := run (switches.map Switch.text ++ [f]) files
    let emitted := run ["--emit-ast", f] files
    let again := run (switches.map Switch.text ++ ["--ast", f ++ ".ast.json"]) emitted.files
    (∀ p, Source.parse source = .ok p → p.PlainLiterals →
        emitted.exit = .status 0 ∧ (p.nesting ≤ Host.nesting → again.Agree direct)) ∧
      ∀ fault message, Source.parse source = .error fault → fault.message? = some message →
        emitted.exit = .status 1 ∧ emitted.err = direct.err ∧ emitted.files = files := by
  intro direct emitted again
  have hempty := hfile.isEmpty_eq_false
  have hdirect : direct = _ := run_program hname hempty switches files
  have hemitted : emitted = _ := run_emit hname hempty files
  constructor
  · intro p hparse hp
    obtain ⟨hexit, hdocument, halike⟩ := emit_document hfile hread hfree hparse hp
    rw [← hemitted] at hexit hdocument halike
    refine ⟨hexit, fun hdepth => ?_⟩
    have hagain : again = _ :=
      run_tree (Argument.isName_append hname hdash hnumber) (by simp) switches emitted.files
    rw [runTree_document (Source.parse_wellSorted hparse) (Source.parse_plain hparse hp) hdepth
      hdocument] at hagain
    rw [runSource, readSource_of_readText hread hparse] at hdirect
    rw [hagain, hdirect]
    exact (execute_agree halike _ _).symm
  · intro fault message hparse hfault
    rw [emit, readSource_of_fault hread hparse hfault] at hemitted
    rw [runSource, readSource_of_fault hread hparse hfault] at hdirect
    rw [hemitted, hdirect]
    exact ⟨rfl, rfl, rfl⟩

/-! ### A file in a directory of its own -/

/-- A directory with one source file. -/
def oneFile (path : List String) (source : String) : FileTree := ⟨[(path, source.toUTF8)]⟩

/-- No directory is in the place of the document of a file that is alone. -/
theorem target_oneFile_ne_directory {f text source : String} {path : List String}
    (hfile : NamesFile f) (hread : (oneFile path text).readText (.ofText f) = .ok source) :
    (oneFile path text).target (.ofText (f ++ ".ast.json")) ≠ .directory := by
  obtain ⟨root, dirs, name, hpart, hbeside, hpath, hdocument⟩ :=
    Path.ofText_append hfile ".ast.json" (by decide) (by decide)
  obtain ⟨_, _, htarget, -⟩ := FileTree.target_of_readText hread
  have hslash : name ++ ".ast.json" ≠ "/" := document_ne (by decide) name
  rw [hpath] at htarget
  rw [hdocument]
  exact FileTree.target_single_ne_directory hpart hbeside hslash htarget

theorem readText_oneFile {path : List String} {source : String} {p : Path}
    (hp : (oneFile path source).target p = .file path source.toUTF8) (hsource : '\r' ∉ source.toList) :
    (oneFile path source).readText p = .ok source := by
  rw [FileTree.readText, hp]
  exact FileTree.decode_toUTF8 hsource

section

open Host

/-- A text with a program that prints a number and then divides it by zero. -/
def failingText : String := "main\x7bint half=7/2;print(\"a\",half);half=half/0;\x7d"

/-- The program of `failingText`. -/
def failingProgram : Program where
  functions := []
  main := .main [.declare (.str "int") (.str "half")
      (some (.binary (.lit (.int 7)) .div (.lit (.int 2)))),
    .expr (.call (.str "print") [.lit (.str "a"), .var (.str "half")]),
    .assign (.str "half") (.binary (.var (.str "half")) .div (.lit (.int 0)))]

theorem parse_failingText : Source.parse failingText = .ok failingProgram := by cbv

theorem failingProgram_plainLiterals : failingProgram.PlainLiterals := by
  refine ⟨nofun, ?_⟩
  simp [failingProgram, Block.Each, Stmt.AllEach, Stmt.Each, Expr.AllEach, Expr.Each, Literal.Plain]

/-- A text that ends within its main block. -/
def openText : String := "main\x7b"

theorem parse_openText : Source.parse openText = .error (.unexpectedEnd ⟨1, 5⟩) := by cbv

/-- A file in a directory, run with a trace and without a report. -/
theorem run_emitted_agree_failingText :
    (let files := oneFile ["lib", "start.timp"] failingText
      let emitted := run ["--emit-ast", "lib/start.timp"] files
      emitted.exit = .status 0 ∧
        (run ["-vv", "--no-report", "--ast", "lib/start.timp.ast.json"] emitted.files).Agree
          (run ["-vv", "--no-report", "lib/start.timp"] files)) ∧
    (let files := oneFile ["lib", "start.timp"] openText
      let emitted := run ["--emit-ast", "lib/start.timp"] files
      emitted.exit = .status 1 ∧ emitted.err = (run ["lib/start.timp"] files).err ∧
        emitted.files = files) := by
  have hfile : NamesFile "lib/start.timp" := by decide
  have hread : (oneFile ["lib", "start.timp"] failingText).readText (.ofText "lib/start.timp") =
      .ok failingText := readText_oneFile rfl (by decide)
  have hread' : (oneFile ["lib", "start.timp"] openText).readText (.ofText "lib/start.timp") =
      .ok openText := readText_oneFile rfl (by decide)
  obtain ⟨hexit, hagree⟩ := (run_emitted_agree hread hfile rfl (by decide) rfl
    (target_oneFile_ne_directory hfile hread) [.verbose 1, .noReport]).1 _ parse_failingText
      failingProgram_plainLiterals
  exact ⟨⟨hexit, hagree (by decide)⟩,
    (run_emitted_agree hread' hfile rfl (by decide) rfl
      (target_oneFile_ne_directory hfile hread') []).2 _ _ parse_openText rfl⟩

/-! ### Names that do not lead to a document -/

/-- A text with an empty program. -/
def emptyText : String := "main\x7b\x7d"

theorem parse_emptyText : Source.parse emptyText = .ok ⟨[], .main []⟩ := by cbv

theorem emptyProgram_plainLiterals : Program.PlainLiterals ⟨[], .main []⟩ := ⟨nofun, trivial⟩

theorem run_emptyText {f : String} {path : List String} (hname : Argument.IsName f)
    (hempty : f.isEmpty = false)
    (hread : (oneFile path emptyText).readText (.ofText f) = .ok emptyText) :
    (run [f] (oneFile path emptyText)).exit = .status 0 := by
  have hrun := run_program hname hempty [] (oneFile path emptyText)
  rw [runSource, readSource_of_readText hread parse_emptyText] at hrun
  exact congrArg Report.exit hrun

theorem emit_emptyText {f : String} {path : List String} (hfile : NamesFile f)
    (hname : Argument.IsName f)
    (hread : (oneFile path emptyText).readText (.ofText f) = .ok emptyText) :
    (run ["--emit-ast", f] (oneFile path emptyText)).exit = .status 0 := by
  rw [run_emit hname hfile.isEmpty_eq_false]
  have hfree := target_oneFile_ne_directory hfile hread
  exact (emit_document hfile hread hfree parse_emptyText emptyProgram_plainLiterals).1

/-- The document of a file whose name is given with a slash at its end. -/
theorem emit_slash : run ["--emit-ast", "a/"] (oneFile ["a"] emptyText) =
    ⟨.status 0, "a.ast.json\n", "",
      ⟨[(["a"], emptyText.toUTF8),
        (["a.ast.json"], (Codes.characters (document ⟨[], .main []⟩)).toUTF8)]⟩⟩ := by
  have hname : Argument.IsName "a/" := rfl
  have hread : (oneFile ["a"] emptyText).readText (.ofText "a/") = .ok emptyText :=
    readText_oneFile rfl (by decide)
  rw [run_emit hname rfl, emit, readSource_of_readText hread parse_emptyText]
  rfl

/-- A document is not run if its name is taken for an option. -/
theorem run_unknown {f : String} (hseparator : f ≠ "--")
    (hf : Argument.classify f = .ok (.unknown f)) (files : FileTree) :
    (run ["--ast", f] files).exit = .status 2 := by
  have hclassify : Argument.classifyAll ["--ast", f] = .ok [.option .tree false none, .unknown f] :=
    Argument.classifyAll_cons (by decide) rfl (Argument.classifyAll_cons hseparator hf rfl)
  have htake : OptionState.takeArguments .initial [.option .tree false none, .unknown f] =
      .error (.expectsValue .tree) := by
    rw [OptionState.takeArguments.eq_def]
    rfl
  rw [run, Options.parse_eq_error hclassify htake]
  rfl

/-- The name of a document is taken for an option if that of its file is a lone dash or a negative
number, and it is the name of another file if that of its file ends in a slash. Such files are run and
their trees emitted, but the trees are not run. -/
theorem run_emitted_other_name :
    (let files := oneFile ["-"] emptyText
      let emitted := run ["--emit-ast", "-"] files
      (run ["-"] files).exit = .status 0 ∧ emitted.exit = .status 0 ∧
        (run ["--ast", "-.ast.json"] emitted.files).exit = .status 2) ∧
    (let files := oneFile ["-1"] emptyText
      let emitted := run ["--emit-ast", "-1"] files
      (run ["-1"] files).exit = .status 0 ∧ emitted.exit = .status 0 ∧
        (run ["--ast", "-1.ast.json"] emitted.files).exit = .status 2) ∧
    (let files := oneFile ["a"] emptyText
      let emitted := run ["--emit-ast", "a/"] files
      (run ["a/"] files).exit = .status 0 ∧ emitted.exit = .status 0 ∧
        (run ["--ast", "a/.ast.json"] emitted.files).exit = .status 1) := by
  refine ⟨?_, ?_, ?_⟩
  · have hread : (oneFile ["-"] emptyText).readText (.ofText "-") = .ok emptyText :=
      readText_oneFile rfl (by decide)
    exact ⟨run_emptyText rfl rfl hread, emit_emptyText (by decide) rfl hread,
      run_unknown (by decide) rfl _⟩
  · have hread : (oneFile ["-1"] emptyText).readText (.ofText "-1") = .ok emptyText :=
      readText_oneFile rfl (by decide)
    exact ⟨run_emptyText rfl rfl hread, emit_emptyText (by decide) rfl hread,
      run_unknown (by decide) rfl _⟩
  · have hread : (oneFile ["a"] emptyText).readText (.ofText "a/") = .ok emptyText :=
      readText_oneFile rfl (by decide)
    have hname : Argument.IsName "a/" := rfl
    -- the document is beside the file, and the other name leads into the file
    have hemitted := emit_slash
    have hother : Argument.IsName "a/.ast.json" := rfl
    have hagain := run_tree hother rfl [] (run ["--emit-ast", "a/"] (oneFile ["a"] emptyText)).files
    rw [hemitted] at hagain
    refine ⟨run_emptyText hname rfl hread, congrArg Report.exit hemitted, ?_⟩
    rw [hemitted]
    exact congrArg Report.exit hagain

end

end Command

end SmallImp
