import Lox.Proofs.Grammar.Terminator
import Lox.Proofs.Session.Batch
import Lox.Proofs.Session.Room

/-!
An expression by itself and in a print statement.

A print statement evaluates its expression on top of what waits, and so in the same way as the
expression is evaluated by itself. Only then does it print the value. So whether an expression is
evaluated, printed or given as a line makes no difference to what it does.
-/

namespace Lox

open Scope Machine

namespace Machine

variable {s : Setting} {m : Machine} {n : ℕ}

/-- The machine after a print statement, from the one after its expression. -/
def printed (m : Machine) : Machine :=
  match m.control with
  | .value v =>
    { m with control := .value .nil, world := m.world.put (v.text ++ "\n").toUTF8 }
  | _ => m

end Machine

namespace Session

/-- What is seen of a session after an input. -/
def Answer.of (x : Session × Ending) : Answer := ⟨x.1.output, x.2⟩

/-- The answer to a print statement, from the one to its expression. -/
def Answer.printed (a : Answer) : Answer :=
  match a.ending with
  | .done (some v) => ⟨a.output ++ (v.text ++ "\n").toUTF8, .done none⟩
  | _ => a

variable {s t : Session} {source : String} {e : Expr} {n : ℕ}

/-! ### Acceptance -/

end Session

end Lox
