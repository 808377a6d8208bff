import Lox.Proofs.Grammar.Seam
import Lox.Proofs.Machine.Succession
import Lox.Proofs.Session.Refusal

/-!
Two programs in one input or in two.

A session that runs one program and then another comes to where it would have come with both in one
input, but for the lines of the second.
-/

namespace Lox.Session

open Scope Machine

variable {services : List Service} {sink : Sink} {s s' t : Session} {mode : Grammar.Mode}
  {source : String} {input : Grammar.Input} {i j : NodeId}

/-! ### Acceptance -/

lemma Numbered.resume (h : Numbered s) (hhost : s.host.Uniform) (n : ℕ) :
    Numbered (s.resume n) := by
  induction n with
  | zero => exact h
  | succ n ih =>
    rw [resume_succ]
    exact ih.step hhost

lemma host_of_accept (h : s.accept mode source = (s', .ok input)) : s'.host = s.host := by
  obtain ⟨-, -, hs'⟩ := accept_eq_ok h
  rw [hs']
  rfl

end Lox.Session
