import SmallImp.Problem

/-!
# Files and paths

The command line works in a directory whose files are known. Directories are there because files lie
in them; the directories above, and the root, are always there.

* `Path` — a path in normal form;
* `FileTree` — the files of a directory;
* `FileTree.readText`, `FileTree.write` — reading text and writing files.
-/

namespace SmallImp

/-- The text between slashes. -/
def splitSlashes (cs : List Char) : List (List Char) :=
  cs.foldr
    (fun c parts =>
      match c, parts with
      | '/', parts => [] :: parts
      | c, part :: rest => (c :: part) :: rest
      | c, [] => [[c]])
    [[]]

/-- A path: what it starts with, and its parts. Empty parts and single dots are left out. -/
structure Path where
  root : String
  parts : List String
deriving DecidableEq

namespace Path

/-- The beginning of an absolute path. Two slashes are kept, any other number counts as one. -/
def rootOf (cs : List Char) : String :=
  match (cs.takeWhile (· = '/')).length with
  | 0 => ""
  | 2 => "//"
  | _ => "/"

/-- The path that a text spells. -/
def ofText (text : String) : Path :=
  let parts := (splitSlashes text.toList).map String.ofList
  ⟨rootOf text.toList, parts.filter fun part => part ≠ "" ∧ part ≠ "."⟩

/-- How a path is printed. -/
def text (p : Path) : String :=
  if p.root = "" ∧ p.parts = [] then "." else p.root ++ "/".intercalate p.parts

/-- The path with something added to its last part. -/
def addToName (p : Path) (suffix : String) : Path :=
  { p with parts := p.parts.dropLast ++ [p.parts.getLast?.getD "" ++ suffix] }

end Path

/-- The parts under which a file is known; an absolute path has the root as its first part. -/
def Path.key (p : Path) : List String := if p.root = "" then p.parts else "/" :: p.parts

/-- The files of a directory by the parts of their paths. -/
structure FileTree where
  files : List (List String × ByteArray)

/-- What a path leads to. -/
inductive Target where
  | file (path : List String) (content : ByteArray)
  | directory
  | missing (path : List String)
  | notDirectory

namespace FileTree

/-- The content of the file with the given parts. -/
def content? (t : FileTree) (path : List String) : Option ByteArray :=
  (t.files.find? fun file => file.1 == path).map (·.2)

/-- Whether parts lead nowhere but upwards, or to the root. -/
def isAbove (path : List String) : Bool := path == ["/"] || path.all (· == "..")

/-- Whether there is a directory with the given parts. -/
def isDirectory (t : FileTree) (path : List String) : Bool :=
  isAbove path || t.files.any fun file => path.isPrefixOf file.1 && file.1 != path

/-- The directory above; that of the root is the root. -/
def above (path : List String) : List String :=
  if path = ["/"] then path else if isAbove path then path ++ [".."] else path.dropLast

/-- Follows parts of a path from a directory. An empty part or a dot stays where it is. -/
def follow (t : FileTree) : List String → List String → Target
  | here, [] =>
    match t.content? here with
    | some content => .file here content
    | none => if t.isDirectory here then .directory else .missing here
  | here, part :: rest =>
    if t.isDirectory here then
      if part = "" ∨ part = "." then t.follow here rest
      else if part = ".." then t.follow (above here) rest
      else t.follow (here ++ [part]) rest
    else if (t.content? here).isSome then .notDirectory
    else .missing []

/-- What a path leads to. -/
def target (t : FileTree) (p : Path) : Target :=
  if p.root = "" then t.follow [] p.parts else t.follow ["/"] p.parts

/-- What a path leads to when it is opened as it is written. -/
def rawTarget (t : FileTree) (path : String) : Target :=
  let parts := (splitSlashes path.toList).map String.ofList
  if path.isEmpty then .missing []
  else if Path.rootOf path.toList = "" then t.follow [] parts
  else t.follow ["/"] parts

/-- Whether a path leads to a file or a directory. -/
def has (t : FileTree) (p : Path) : Bool :=
  match t.target p with
  | .file _ _ => true
  | .directory => true
  | .missing _ => false
  | .notDirectory => false

/-- Line breaks of every kind as line feeds. -/
def unifyLines : List Char → List Char
  | '\r' :: '\n' :: rest => '\n' :: unifyLines rest
  | '\r' :: rest => '\n' :: unifyLines rest
  | c :: rest => c :: unifyLines rest
  | [] => []

/-- The text of a file. -/
def decode (content : ByteArray) : Except FileFault String :=
  match String.fromUTF8? content with
  | some text => .ok (String.ofList (unifyLines text.toList))
  | none => .error .notText

/-- The text of the file that was found. -/
def textOf : Target → Except FileFault String
  | .file _ content => decode content
  | .directory => .error .directory
  | .missing _ => .error .missing
  | .notDirectory => .error .notDirectory

/-- The text of a file that is opened by its path as it is written. -/
def readRaw (t : FileTree) (path : String) : Except FileFault String :=
  if path.toList.contains '\x00' then .error .nullInPath else textOf (t.rawTarget path)

/-- The text of the file of a path. -/
def readText (t : FileTree) (p : Path) : Except FileFault String := textOf (t.target p)

/-- Sets the content of a file in a list of files. -/
def setFile (path : List String) (content : ByteArray) :
    List (List String × ByteArray) → List (List String × ByteArray)
  | [] => [(path, content)]
  | file :: rest =>
    if file.1 = path then (path, content) :: rest else file :: setFile path content rest

/-- Writes a text to the file of a path. -/
def write (t : FileTree) (p : Path) (text : String) : Except FileFault FileTree :=
  match t.target p with
  | .file path _ => .ok ⟨setFile path text.toUTF8 t.files⟩
  | .missing [] => .error .missing
  | .missing path => .ok ⟨setFile path text.toUTF8 t.files⟩
  | .directory => .error .directory
  | .notDirectory => .error .notDirectory

/-- The files of a tree that are new or changed since an earlier one. -/
def changes (before after : FileTree) : List (List String × ByteArray) :=
  after.files.filter fun file => before.content? file.1 != some file.2

end FileTree

end SmallImp
