import SmallImp.CommandLine.Batch
import SmallImp.CommandLine.Options
import SmallImp.Json.Writer

/-!
# The command line

There are three modes: running a source file, emitting the tree of a source file as a document, and
running the tree in such a document.

* `Exit`, `Report` — how the command ends, what it prints, and the files it leaves;
* `Command.run` — the command on given arguments and files.
-/

namespace SmallImp

/-- How the command ends. -/
inductive Exit where
  | status (code : Nat)
  /-- A problem that the command does not report itself. -/
  | crash (problem : Problem)

/-- What the command does: how it ends, what it prints, and the files it leaves. -/
structure Report where
  exit : Exit
  out : Codes
  err : String
  files : FileTree

namespace Command

/-- How the command is used. -/
def usage : String :=
  "usage: tinyimp [-h] [-v] [--no-report]\n" ++
  "               [--emit-ast TIMP_FILE | --ast AST_JSON_FILE]\n" ++
  "               [program]\n"

/-- The text that is printed for help. -/
def help : String :=
  usage ++
  "\n" ++
  "Tinyimp language interpreter\n" ++
  "\n" ++
  "positional arguments:\n" ++
  "  program               Tinyimp program file (.timp) to execute\n" ++
  "\n" ++
  "options:\n" ++
  "  -h, --help            show this help message and exit\n" ++
  "  -v                    increase debug verbosity (can be repeated)\n" ++
  "  --no-report           do not print the final program state\n" ++
  "  --emit-ast TIMP_FILE  emit AST JSON for the given .timp file\n" ++
  "  --ast AST_JSON_FILE   execute AST from a JSON file\n"

/-- An error that ends the command with status one. -/
def failed (files : FileTree) (message : Codes) : Report :=
  ⟨.status 1, [], message.escaped ++ "\n", files⟩

/-- A problem that ends the command without a report of its own. -/
def crashed (files : FileTree) (problem : Problem) : Report := ⟨.crash problem, [], "", files⟩

/-- Arguments that cannot be used. -/
def misused (files : FileTree) (fault : UsageFault) : Report :=
  ⟨.status 2, [], usage ++ "tinyimp: error: " ++ fault.message ++ "\n", files⟩

/-- The file of a path was not found. -/
def notFound (files : FileTree) (path : Path) : Report :=
  failed files ("Error: file " ++ path.text ++ " not found")

/-- Reads and parses a source file. -/
def readSource [Host] (files : FileTree) (path : Path) : Except Report Program :=
  if files.has path then
    match files.readText path with
    | .error fault => .error (crashed files (.file fault))
    | .ok source =>
      match Source.parse source with
      | .ok p => .ok p
      | .error fault =>
        match fault.message? with
        | some message => .error (failed files ("Syntax error: " ++ message))
        | none => .error (crashed files (.source fault))
  else .error (notFound files path)

/-- Runs a program or a tree and reports its errors. -/
def execute (options : Options) (files : FileTree) (action : Interpreter .utf8 → Run Unit) : Report :=
  let i := Batch.interpreter options.verbosity options.report
  let batch := Batch.run i files (action i)
  let out := batch.world.log.out
  match batch.result with
  | .ok () => ⟨.status 0, out, "", batch.files⟩
  | .error (.run (.error e)) =>
    ⟨.status 1, out, "Runtime error: " ++ e.report.escaped ++ "\n", batch.files⟩
  | .error problem => ⟨.crash problem, out, "", batch.files⟩

/-- The document that holds the tree of a program. -/
def document (p : Program) : Codes := p.toNode.toJson.render

/-- What can be written of the document that holds the tree of a program. -/
def written (p : Program) : Codes := p.toNode.toJson.written

/-- Emits the tree of a source file into a document beside it. -/
def emit [Host] (files : FileTree) (path : Path) : Report :=
  match readSource files path with
  | .error report => report
  | .ok p =>
    let target := path.addToName ".ast.json"
    match files.write target (Codes.characters (written p)) with
    | .error fault => crashed files (.file fault)
    | .ok files =>
      if (document p).isPlain then ⟨.status 0, target.text ++ "\n", "", files⟩
      else crashed files (.file .unencodable)

/-- Runs the tree in the text of a document. A text that is no document, and an integer that is too
large for a float literal, are not reported. -/
def runDocument [Host] (options : Options) (files : FileTree) (path : Path) (text : String) : Report :=
  match Node.ofText text with
  | .ok node => execute options files fun i => i.runNode node
  | .error (.tree .tooLarge) => crashed files (.tree .tooLarge)
  | .error (.tree fault) =>
    failed files ("Error: invalid AST file " ++ path.text ++ ": " ++ fault.message)
  | .error problem => crashed files problem

/-- Runs the tree in the document of a path. -/
def runTree [Host] (options : Options) (files : FileTree) (path : Path) : Report :=
  if files.has path then
    match files.readText path with
    | .error fault => crashed files (.file fault)
    | .ok text => runDocument options files path text
  else notFound files path

/-- Runs a source file. -/
def runSource [Host] (options : Options) (files : FileTree) (path : Path) : Report :=
  match readSource files path with
  | .error report => report
  | .ok p => execute options files fun i => i.run p

/-- An option or a name that was given and is not empty. -/
def given? : Option String → Option String
  | some text => if text.isEmpty then none else some text
  | none => none

/-- What the options ask for. -/
def dispatch [Host] (options : Options) (files : FileTree) : Report :=
  match given? options.emit, given? options.tree, given? options.program with
  | some path, _, _ => emit files (.ofText path)
  | none, some path, _ => runTree options files (.ofText path)
  | none, none, some path => runSource options files (.ofText path)
  | none, none, none => misused files .missingProgram

/-- The command on given arguments, in a directory with the given files. -/
def run [Host] (args : List String) (files : FileTree) : Report :=
  match Options.parse args with
  | .error fault => misused files fault
  | .ok none => ⟨.status 0, help, "", files⟩
  | .ok (some options) => dispatch options files

end Command

end SmallImp
