import Lox.Machine.Step

/-!
Runs of the machine: as many steps as are allowed, or up to the end.
-/

namespace Lox.Machine

/-- Whether the run has come to its end: nothing waits for the value or the way out in hand. -/
def isHalted (m : Machine) : Bool :=
  match m.pending, m.control with
  | [], .value _ => true
  | [], .exit _ => true
  | _, _ => false

/-- Runs for at most `n` steps. -/
def run (s : Setting) : Nat → Machine → Machine
  | 0, m => m
  | n + 1, m => if m.isHalted then m else run s n (m.step s)

/-- The failure that a way out means at the top level. -/
def Exit.failure : Exit → Failure
  | .leaveLoop => .runtime 0 .strayBreak
  | .leaveCall _ => .runtime 0 .strayReturn
  | .fail f => f

/-- What came of a run that is at its end. -/
def result? (m : Machine) : Option (Except Failure Value) :=
  match m.pending, m.control with
  | [], .value v => some (.ok v)
  | [], .exit x => some (.error x.failure)
  | _, _ => none

theorem step_of_isHalted (s : Setting) {m : Machine} (h : m.isHalted) : m.step s = m := by
  unfold isHalted at h
  unfold step
  split at h <;> simp_all

/-- A run can be continued where it was left. -/
theorem run_add (s : Setting) (n k : Nat) (m : Machine) :
    run s (n + k) m = run s k (run s n m) := by
  induction n generalizing m with
  | zero => rw [Nat.zero_add]; rfl
  | succ n ih =>
    rw [Nat.add_right_comm]
    by_cases h : m.isHalted
    · cases k <;> simp [run, h]
    · simp [run, h, ih]

theorem run_succ (s : Setting) (n : Nat) (m : Machine) : run s (n + 1) m = (run s n m).step s := by
  rw [run_add]
  by_cases h : (run s n m).isHalted
  · rw [step_of_isHalted s h, run, if_pos h]
  · rw [run, if_neg h, run]

end Lox.Machine
