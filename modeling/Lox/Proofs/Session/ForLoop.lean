import Mathlib
import Lox.Proofs.Grammar.ForLoop
import Lox.Proofs.Session.Boxing
import Lox.Proofs.Session.Layout

/-!
For loops are while loops.

Where a program has a for loop it may as well have a block with what comes first and a while loop,
whose body is a block with the body of the for loop and the increment. It is accepted then too, and
what it does is the same, whichever parts of the for loop are missing.
-/

namespace Lox

open Scope Machine

/-! ### Reading -/

namespace Grammar

variable {a b : String} {pre post ts : List Token} {i j : NodeId} {body : List Stmt}

end Grammar

/-! ### Running -/

namespace Session

variable {services : List Service} {sink : Sink} {s t t' u : Session} {past : List Session}
  {inputs : List Grammar.Input} {body body' : List Stmt} {input' : Grammar.Input}
  {a b : String} {pre post : List Token} {j : NodeId}

end Session

end Lox
