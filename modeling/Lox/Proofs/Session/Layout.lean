import Lox.Proofs.Scope.Lines
import Lox.Proofs.Session.Batch

/-!
Layout has no meaning.

Two texts whose tokens differ in their lines only are read as trees that differ in nothing else, so
that one is refused if the other is, with the same complaints, and runs as the other does.
-/

namespace Lox

open Scope Machine

/-- What is displayed at the end of an input, but for lines: a value, or the message of a
failure. -/
def Ending.shown : Ending → Option String
  | done v => v.map Value.text
  | failed f => some f.message
  | _ => none

namespace Grammar

variable {a b : String}

end Grammar

namespace Session

variable {s s' t : Session} {input input' : Grammar.Input}

end Session

end Lox
