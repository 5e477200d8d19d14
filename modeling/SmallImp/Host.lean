/-!
# The host

* `Host` — what a program takes from the system it runs on.
-/

namespace SmallImp

/-- What a program takes from the system it runs on: the characters that have a name, and how deep
the lists and objects of a document may be nested. -/
class Host where
  named : List Char → Option Char
  nesting : Nat

namespace Host

/-- A host that knows no names. -/
scoped instance nameless : Host := ⟨fun _ => none, 990⟩

end Host

end SmallImp
