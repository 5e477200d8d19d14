import SmallImp.CommandLine.Files
import SmallImp.Machine.Run
import SmallImp.Source.Parser

/-!
# Runs with a trace file

A run outside of a session traces to the file `debug.txt` of the directory it works in. The file is
opened, and emptied, when the interpreter is made.

* `Batch` — what such a run leaves behind;
* `Batch.run` — a run that may trace to the file;
* `Batch.ofSource`, `Batch.ofFile` — the run of a text and of a source file.
-/

namespace SmallImp

/-- What a run leaves behind: how it ended, its world, and the files. -/
structure Batch where
  result : Except Problem Unit
  world : World
  files : FileTree

namespace Batch

/-- The file to which runs trace. -/
def tracePath : Path := .ofText "debug.txt"

/-- A run that was refused before it started. -/
def refused (files : FileTree) (problem : Problem) : Batch := ⟨.error problem, .empty, files⟩

/-- How a computation of a run ended, and its world. -/
def outcome (action : Run Unit) : Except Problem Unit × World :=
  match action .empty with
  | .ok () w => (.ok (), w)
  | .error e w => (.error (.run e), w)

/-- Writes the trace file, if anything is traced. -/
def writeTrace (verbosity : Nat) (files : FileTree) (text : String) :
    Except FileFault FileTree :=
  if verbosity = 0 then .ok files else files.write tracePath text

/-- A run that starts in an empty world. -/
def run {streams : Streams} (i : Interpreter streams) (files : FileTree) (action : Run Unit) : Batch :=
  match writeTrace i.verbosity files "" with
  | .error fault => refused files (.file fault)
  | .ok opened =>
    let (result, w) := outcome action
    match writeTrace i.verbosity opened (Codes.characters w.log.traceText) with
    | .ok files => ⟨result, w, files⟩
    | .error fault => ⟨.error (.file fault), w, opened⟩

/-- The interpreter of a run of its own, which writes encoded texts. -/
def interpreter (verbosity : Nat) (report : Bool) : Interpreter .utf8 :=
  .fresh verbosity report .standard .utf8

/-- The run of a text. -/
def ofSource [Host] (verbosity : Nat) (files : FileTree) (source : String) : Batch :=
  match Source.parse source with
  | .error fault => refused files (.source fault)
  | .ok p =>
    let i := interpreter verbosity true
    run i files (i.run p)

/-- The run of a source file. -/
def ofFile [Host] (verbosity : Nat) (files : FileTree) (path : String) : Batch :=
  match files.readRaw path with
  | .error fault => refused files (.file fault)
  | .ok source => ofSource verbosity files source

end Batch

end SmallImp
