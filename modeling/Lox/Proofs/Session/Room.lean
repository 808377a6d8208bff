import Lox.Proofs.Machine.Room
import Lox.Proofs.Session.Course
import Lox.Proofs.Session.Termination

/-!
Little room for output cuts the output off, and makes no other difference.

An input that comes to its end with room for everything ends in the same way with room for as many
bytes as it prints, and leaves the same session but for the room. With less room it fails at the
first line that does not fit, which is printed as far as it fits, and the machine is back at the top
level.
-/

namespace Lox.Session

open Machine

variable {s : Session} {mode : Grammar.Mode} {source : String}

/-- The session with room for `n` more bytes of output. -/
def limited (s : Session) (n : ℕ) : Session :=
  { s with machine := s.machine.withSink { s.machine.world.sink with room := some n } }

end Lox.Session
