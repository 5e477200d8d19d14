import SmallImp.Json.Reader
import SmallImp.Node.Codec
import SmallImp.Source.Fault

/-!
# Problems

Whatever can stop a request: a file, a document, a tree, a source text, or the run of a program.

* `FileFault` — why a file is not read or written;
* `Problem` — why a request is not carried out.
-/

namespace SmallImp

/-- Why a file is not read or written. -/
inductive FileFault where
  | missing
  | directory
  /-- A file stands where a path needs a directory. -/
  | notDirectory
  /-- The content of the file is not text. -/
  | notText
  /-- A path has a null character. -/
  | nullInPath
  /-- A text with a surrogate is written. -/
  | unencodable
deriving DecidableEq

/-- The wording of a fault, where it has one. -/
def FileFault.message? : FileFault → Option String
  | .nullInPath => some "embedded null byte"
  | _ => none

/-- Why a request is not carried out. -/
inductive Problem where
  | file (fault : FileFault)
  | document (fault : Json.ReadFault)
  | tree (fault : LoadFault)
  | source (fault : Source.Fault)
  | run (failure : Failure)

/-- The tree in the text of a document. -/
def Node.ofText [Host] (text : String) : Except Problem Node := do
  let value ← (Json.read text).mapError .document
  (Node.ofJson value).mapError .tree

end SmallImp
