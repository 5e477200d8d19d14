import SmallImp.CommandLine.Command

/-!
# The program

The outermost layer: it reads the files that the arguments name, hands them to the command, prints
what the command prints, and writes the files it changed.
-/

namespace SmallImp

/-- The parts of a path with upward steps carried out. -/
def Path.resolved (p : Path) : List String :=
  p.key.foldl (fun here part => if part = ".." then FileTree.above here else here ++ [part]) []

/-- The path with the given parts. -/
def pathText : List String → String
  | "/" :: parts => "/" ++ "/".intercalate parts
  | parts => "/".intercalate parts

/-- What the file system holds at a path: a file, or a directory, which is entered as the place of
an unnamed file. -/
def probe (key : List String) : IO (List (List String × ByteArray)) := do
  try
    return [(key, ← IO.FS.readBinFile (pathText key))]
  catch
    | .inappropriateType .. => return [(key ++ [""], .empty)]
    | _ => return []

/-- Everything on the way to a path. -/
def probeAll (p : Path) : IO (List (List String × ByteArray)) := do
  let mut found := []
  for count in List.range (p.parts.length + 1) do
    let key := { p with parts := p.parts.take count : Path }.resolved
    unless key.isEmpty do
      found := found ++ (← probe key)
  return found

/-- The paths that a command with these arguments looks at. -/
def pathsOf (args : List String) : List Path :=
  match Options.parse args with
  | .ok (some options) =>
    let named := [options.emit, options.tree, options.program].filterMap Command.given?
    Batch.tracePath :: (named.map Path.ofText).flatMap fun p => [p, p.addToName ".ast.json"]
  | _ => []

/-- The files that a command with these arguments looks at. -/
def loadFiles (args : List String) : IO FileTree := do
  let mut files := []
  for path in pathsOf args do
    files := files ++ (← probeAll path)
  return ⟨files⟩

end SmallImp

open SmallImp Host in
/-- The command on the arguments and files of the process. -/
def main (args : List String) : IO UInt32 := do
  let files ← loadFiles args
  let report := Command.run args files
  IO.print report.out.characters
  IO.eprint report.err
  for (path, content) in files.changes report.files do
    IO.FS.writeBinFile (pathText path) content
  match report.exit with
  | .status code => return code.toUInt32
  | .crash _ =>
    IO.eprintln "tinyimp: the input could not be processed"
    return 1
