import Lox.Proofs.Machine.Returning
import Lox.Proofs.Session.Course

/-!
Between two inputs a session is back at the top level, however the inputs ended.
-/

namespace Lox.Session

open Machine

variable {services : List Service} {sink : Sink} {s : Session} {past : List Session}
  {inputs : List Grammar.Input}

/-- At every moment the machine is on its way back to the frame of the globals, outside of all
calls. -/
lemma Course.home (h : Course services sink past inputs) :
    ∀ s ∈ past, s.machine.home = (Env.globals, 0) := by
  induction h with
  | start => exact List.forall_mem_singleton.mpr rfl
  | @step s _ _ _ ih =>
    refine List.forall_mem_cons.mpr ⟨?_, ih⟩
    exact (home_step _ s.machine).trans (ih s (List.mem_cons_self ..))
  | @refused s _ _ _ _ _ _ _ _ ha ih =>
    refine List.forall_mem_cons.mpr ⟨?_, ih⟩
    rw [(accept_eq_error ha).machine]
    exact ih s (List.mem_cons_self ..)
  | @accepted s _ _ _ _ _ _ _ hs ha ih =>
    refine List.forall_mem_cons.mpr ⟨?_, ih⟩
    obtain ⟨-, -, hs'⟩ := accept_eq_ok ha
    have hhome := ih s (List.mem_cons_self ..)
    rw [home_eq (isHalted_iff.mp hs).1] at hhome
    rw [hs']
    exact hhome

/-- Whatever is taken up comes back with the environment and the depth of calls that it found; so
between two inputs the environment is that of the globals, and no call is in progress. -/
theorem environment_and_depth_restored :
    (∀ (d : Setting) (m n r : Machine), Enters d m n → Returns d m.pending n r →
      r.env = m.env ∧ r.depth = m.depth) ∧
    ∀ services sink s, Rests services sink s →
      s.machine.env = Env.globals ∧ s.machine.depth = 0 := by
  refine ⟨fun d m n r => Enters.restores, fun services sink s h => ?_⟩
  obtain ⟨hs, past, inputs, hcourse⟩ := h.course
  have hhome := hcourse.home s (List.mem_cons_self ..)
  rw [home_eq (isHalted_iff.mp hs).1] at hhome
  exact ⟨congrArg Prod.fst hhome, congrArg Prod.snd hhome⟩

/-- Something that is not a function is called within a block of a function. -/
theorem environment_and_depth_restored_after_failure :
    let block : Stmt := .block [.expression (.call (.literal .nil) ⟨.eof, "", 1⟩ [])]
    let m : Machine := { (start [] .unlimited).machine with env := [3, 0], depth := 7 }
    let s := (start [] .unlimited).run 40 "fun f() \x7b \x7b nil(); \x7d \x7d f();"
    (∃ r : Machine, (r.control matches .exit (.fail _)) ∧ r.env = [3, 0] ∧ r.depth = 7 ∧
      Returns ⟨{}, Service.host []⟩ [] { m with control := .exec block } r) ∧
    (s.2 matches .failed _) ∧ s.1.machine.env = Env.globals ∧ s.1.machine.depth = 0 := by
  intro block m s
  obtain ⟨hreturns, hrests⟩ := environment_and_depth_restored
  have hrun : Returns ⟨{}, Service.host []⟩ [] { m with control := .exec block } _ :=
    returns_run (n := 20) (by decide +kernel)
  obtain ⟨henv, hdepth⟩ := hreturns _ m _ _ (.exec block) hrun
  have hfailed : s.2 matches .failed _ := by decide +kernel
  have hend : s.2 ≠ .unfinished := by
    intro h
    rw [h] at hfailed
    cases hfailed
  exact ⟨⟨_, by decide +kernel, henv, hdepth, hrun⟩, hfailed,
    hrests [] .unlimited _ (.submit .start hend)⟩

end Lox.Session
