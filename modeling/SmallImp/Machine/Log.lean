import SmallImp.Failure

/-!
# Output of a run

* `Encoding`, `Streams` — which texts can be written;
* `Log` — the text printed so far and the lines traced so far;
* `Eval` — computations that print and trace, and that may fail.
-/

namespace SmallImp

/-- Which texts a stream takes. -/
inductive Encoding where
  /-- Every text. -/
  | any
  /-- Texts of characters. -/
  | utf8
deriving DecidableEq

/-- Whether a text can be written to a stream. -/
def Encoding.takes : Encoding → Codes → Bool
  | .any, _ => true
  | .utf8, text => text.isPlain

/-- Where a run prints and where it traces. -/
structure Streams where
  out : Encoding
  trace : Encoding
deriving DecidableEq

/-- Streams that take every text. -/
abbrev Streams.free : Streams := ⟨.any, .any⟩

/-- Streams that encode what they take. -/
abbrev Streams.utf8 : Streams := ⟨.utf8, .utf8⟩

/-- The text printed and the lines traced. -/
structure Log where
  out : Codes
  trace : Array Codes
deriving Inhabited

namespace Log

/-- Nothing printed and nothing traced. -/
def empty : Log := ⟨[], #[]⟩

/-- Prints a text. -/
def write (log : Log) (text : Codes) : Log := { log with out := log.out ++ text }

/-- Traces a line. -/
def note (log : Log) (line : Codes) : Log := { log with trace := log.trace.push line }

/-- The traced lines as a text, each with a line break. -/
def traceText (log : Log) : Codes := log.trace.foldl (fun text line => text ++ line ++ "\n") []

end Log

/-- Computations that print and trace. What was printed before a failure stays printed. -/
abbrev Eval := EStateM Failure Log

namespace Eval

/-- A computation without output. -/
def ofExcept {α : Type} : Except Failure α → Eval α
  | .ok a => pure a
  | .error e => throw e

/-- Prints a text to a stream that may refuse it. -/
def write (stream : Encoding) (text : Codes) : Eval Unit :=
  if stream.takes text then modify (·.write text) else throw .unencodable

/-- Traces a line to a stream that may refuse it, if the verbosity reaches a level. -/
@[macro_inline]
def note (stream : Encoding) (verbosity level : Nat) (line : Codes) : Eval Unit :=
  if level ≤ verbosity then
    if stream.takes line then modify (·.note line) else throw .unencodable
  else pure ()

end Eval

end SmallImp
