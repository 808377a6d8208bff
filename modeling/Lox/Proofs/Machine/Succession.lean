import Lox.Proofs.Machine.Returning

/-!
One program after another.

A list of statements runs up to its end without a look at the statements that come after it. So a
run of two programs in one is a run of the first and then a run of the second, if the first comes to
its end; and the machine is then where the first has left it.
-/

namespace Lox.Machine

variable {s : Setting} {m r : Machine} {ps : List Pending} {n : ℕ}

lemma run_of_isHalted (h : m.isHalted) (n : ℕ) : m.run s n = m := by
  cases n with
  | zero => rfl
  | succ n => exact if_pos h

lemma run_of_not_isHalted (h : ¬m.isHalted) (n : ℕ) : m.run s (n + 1) = (m.step s).run s n :=
  if_neg h

end Lox.Machine
