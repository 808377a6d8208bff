import Lox.Proofs.Machine.Levels
import Lox.Proofs.Scope.Loops
import Lox.Proofs.Session.Batch

/-!
Programs without loops end.

All code that a session can come to run is part of an input that was accepted. If none of these has
a loop, every input comes to its end, however its functions call each other.
-/

namespace Lox

open Scope

namespace Machine

variable {x : Scene} {m : Machine} {env : Env} {S : Shape}

lemma Placed.not_loop (hinputs : ∀ input ∈ x.inputs, LooplessInput input) {c : Expr} {body : Stmt}
    (h : Placed x env S (.stmt (.loop c body))) : False := by
  obtain ⟨xs, ctx, s, hv, -, -⟩ := h
  exact Stmt.Loopless.not_loop (hv.loopless hinputs)

/-- Loops wait only where they stand in an input. -/
lemma Waits.not_loop (hinputs : ∀ input ∈ x.inputs, LooplessInput input) {q : Stage}
    {ps : List Pending} (h : Waits x q env S ps) {c : Expr} {body : Stmt} {rest : List Pending} :
    ps ≠ .loopTest c body :: rest ∧ ps ≠ .loopBody c body :: rest := by
  induction h with
  | operand hp =>
    refine ⟨?_, ?_⟩
    · rintro ⟨⟩
      exact hp.elim
    · rintro ⟨⟩
      exact hp.elim
  | head hp =>
    refine ⟨?_, ?_⟩
    · rintro ⟨⟩
      exact Placed.not_loop hinputs hp
    · rintro ⟨⟩
      exact hp.elim
  | loopBody hp =>
    refine ⟨nofun, ?_⟩
    rintro ⟨⟩
    exact hp.not_loop hinputs
  | ofDeclaration _ ih => exact ih
  | _ => exact ⟨nofun, nofun⟩

lemma Runs.waits {ps : List Pending} {control : Control} (h : Runs x env ps control) :
    ∃ q S, Waits x q env S ps := by
  cases h with
  | eval _ _ hw => exact ⟨_, _, hw⟩
  | exec _ _ hw => exact ⟨_, _, hw⟩
  | execAll _ _ hw => exact ⟨_, _, hw⟩
  | value _ _ hw => exact ⟨_, _, hw⟩
  | exit _ hw => exact ⟨_, _, hw⟩

/-- Where no input has a loop, the machine comes to no loop. -/
lemma Invariant.not_atLoop (hinputs : ∀ input ∈ x.inputs, LooplessInput input)
    (h : Invariant x m) : ¬m.AtLoop := by
  obtain ⟨q, S, hw⟩ := h.runs.waits
  rintro (⟨c, body, hc⟩ | ⟨c, body, ps, hp | hp⟩)
  · obtain ⟨S, hp⟩ := h.node (n := .stmt (.loop c body)) (by rw [hc]; rfl)
    exact hp.not_loop hinputs
  · exact (hw.not_loop hinputs).1 hp
  · exact (hw.not_loop hinputs).2 hp

end Machine

namespace Session

open Machine

variable {services : List Service} {sink : Sink} {s s' : Session} {inputs : List Grammar.Input}
  {mode : Grammar.Mode} {source : String} {input : Grammar.Input}

/-- What holds at each moment of a session in which no input that was accepted has a loop. -/
structure Bounded (s : Session) : Prop where
  fits : ∃ x inputs, Fits x inputs s ∧ ∀ input ∈ inputs, LooplessInput input
  balanced : Balanced s.machine
  host : s.host.AddsNoCode

/-! ### Running -/

lemma Bounded.step (h : Bounded s) : Bounded s.step ∧
    (¬s.machine.isHalted → Below (maxDepth + 1) s.step.machine.levels s.machine.levels) := by
  obtain ⟨x, inputs, hx, hinputs⟩ := h.fits
  obtain ⟨y, hy, -⟩ := hx.step h.host
  by_cases hhalted : s.machine.isHalted
  · have hsame : s.step.machine = s.machine := step_of_isHalted _ hhalted
    exact ⟨⟨⟨y, inputs, hy, hinputs⟩, hsame ▸ h.balanced, h.host⟩, absurd hhalted⟩
  · obtain ⟨hbalanced, hbelow⟩ := h.balanced.step ⟨s.distances, s.host⟩
      (hx.invariant.not_atLoop (hx.inputs ▸ hinputs)) hhalted
    exact ⟨⟨⟨y, inputs, hy, hinputs⟩, hbalanced, h.host⟩, fun _ => hbelow⟩

lemma Bounded.resume (h : Bounded s) (n : ℕ) : Bounded (s.resume n) := by
  induction n with
  | zero => exact h
  | succ n ih =>
    rw [resume_succ]
    exact ih.step.1

/-- The machine comes to its end, since its levels cannot go on below each other forever. -/
lemma Bounded.exists_isHalted (h : Bounded s) : ∃ n, (s.resume n).machine.isHalted := by
  induction hl : s.machine.levels using (wellFounded_below (maxDepth + 1)).induction generalizing s
  rename_i l ih
  subst hl
  by_cases hhalted : s.machine.isHalted
  · exact ⟨0, hhalted⟩
  · obtain ⟨hstep, hbelow⟩ := h.step
    obtain ⟨n, hn⟩ := ih _ (hbelow hhalted) hstep rfl
    refine ⟨n + 1, ?_⟩
    have hresume : s.resume (n + 1) = s.step.resume n := by
      rw [Session.resume, run_of_not_isHalted hhalted]
      rfl
    rwa [hresume]

lemma resume_of_isHalted (h : s.machine.isHalted) (n : ℕ) : s.resume n = s := by
  rw [Session.resume, run_of_isHalted h]

lemma resume_add (s : Session) (n k : ℕ) : s.resume (n + k) = (s.resume n).resume k :=
  congrArg (fun machine => { s with machine }) (run_add ..)

lemma ending_ne_unfinished (h : s.machine.isHalted) (input : Grammar.Input) :
    s.ending input ≠ .unfinished := by
  have hresult : ∃ r, s.machine.result? = some r := by
    obtain ⟨hp, hc⟩ := isHalted_iff.mp h
    unfold result?
    rw [hp]
    generalize s.machine.control = control at hc
    cases control with
    | value v => exact ⟨_, rfl⟩
    | exit x => exact ⟨_, rfl⟩
    | _ => cases hc
  obtain ⟨r, hr⟩ := hresult
  unfold ending
  rw [hr]
  cases input with
  | expression e => cases r <;> exact nofun
  | statements body => cases s.machine.world.sink.flushFault? <;> cases r <;> exact nofun

/-! ### Inputs -/

/-- A text without loops is refused or taken up. -/
lemma Bounded.accept (h : Bounded s) (hs : s.machine.isHalted)
    (hsource : (s.accept mode source).2.isOk → LooplessText source) :
    Bounded (s.accept mode source).1 := by
  obtain ⟨x, inputs, hx, hinputs⟩ := h.fits
  obtain ⟨s', r, ha⟩ : ∃ s' r, s.accept mode source = (s', r) := ⟨_, _, rfl⟩
  rw [ha] at hsource ⊢
  cases r with
  | error cs =>
    have hr := accept_eq_error ha
    exact ⟨⟨x, inputs, hx.refused hr, hinputs⟩, hr.machine ▸ h.balanced, hr.host ▸ h.host⟩
  | ok input =>
    obtain ⟨y, hy, -⟩ := hx.accepted hs ha
    have hinput := looplessInput_read (hsource rfl) (congrArg Grammar.Parsed.result
      (read_of_accept ha))
    obtain ⟨-, -, hs'⟩ := accept_eq_ok ha
    refine ⟨⟨y, _, hy, List.forall_mem_cons.mpr ⟨hinput, hinputs⟩⟩, ?_, ?_⟩
    · have hdepth := h.balanced.calls
      rw [(isHalted_iff.mp hs).1] at hdepth
      rw [hs']
      cases input <;> exact ⟨hdepth, h.balanced.le⟩
    · exact host_of_accept ha ▸ h.host

/-- The sessions between two inputs, if every input so far has come to its end, and none that was
accepted has a loop. -/
inductive Straight (services : List Service) (sink : Sink) : Session → Prop
  | start : Straight services sink (.start services sink)
  | submit {s n mode source} : Straight services sink s →
      ((s.accept mode source).2.isOk → LooplessText source) →
      (s.submit n mode source).2 ≠ .unfinished →
      Straight services sink (s.submit n mode source).1

lemma bounded_start (hhost : (Service.host services).AddsNoCode) :
    Bounded (start services sink) :=
  ⟨⟨_, _, fits_start, nofun⟩, ⟨rfl, Nat.zero_le _⟩, hhost⟩

lemma Bounded.submit (h : Bounded s) (hs : s.machine.isHalted)
    (hsource : (s.accept mode source).2.isOk → LooplessText source) (n : ℕ) :
    Bounded (s.submit n mode source).1 := by
  have haccept := h.accept hs hsource
  unfold Session.submit
  obtain ⟨s', r, ha⟩ : ∃ s' r, s.accept mode source = (s', r) := ⟨_, _, rfl⟩
  rw [ha] at haccept ⊢
  cases r with
  | error cs => exact haccept
  | ok input => exact haccept.resume n

lemma Straight.bounded (hhost : (Service.host services).AddsNoCode)
    (h : Straight services sink s) : Bounded s ∧ s.machine.isHalted := by
  induction h with
  | start => exact ⟨bounded_start hhost, rfl⟩
  | submit _ hsource hend ih =>
    obtain ⟨hbounded, hhalted⟩ := ih
    exact ⟨hbounded.submit hhalted hsource _, isHalted_of_ending hhalted hend⟩

/-- In a session in which no accepted input has a loop, every input comes to its end: after some
number of steps it ends with a value or a failure, or it is refused, and more steps make no
difference. At no moment are there more calls in progress than the limit. -/
theorem ends_of_loopless (hhost : (Service.host services).AddsNoCode)
    (h : Straight services sink s) (mode : Grammar.Mode) (source : String)
    (hsource : (s.accept mode source).2.isOk → LooplessText source) :
    (∀ n, (s.submit n mode source).1.machine.depth ≤ maxDepth) ∧
      ∃ k, (s.submit k mode source).2 ≠ .unfinished ∧
        ∀ n, s.submit (k + n) mode source = s.submit k mode source := by
  obtain ⟨hbounded, hhalted⟩ := h.bounded hhost
  refine ⟨fun n => (hbounded.submit hhalted hsource n).balanced.le, ?_⟩
  have haccept := hbounded.accept hhalted hsource
  unfold Session.submit
  obtain ⟨s', r, ha⟩ : ∃ s' r, s.accept mode source = (s', r) := ⟨_, _, rfl⟩
  rw [ha] at haccept ⊢
  cases r with
  | error cs => exact ⟨0, nofun, fun _ => rfl⟩
  | ok input =>
    obtain ⟨k, hk⟩ := haccept.exists_isHalted
    refine ⟨k, ending_ne_unfinished hk input, fun n => ?_⟩
    unfold conclude
    dsimp only
    rw [resume_add, resume_of_isHalted hk]

/-- A function that calls itself without end comes to an end, here after it was declared by an
earlier input. -/
theorem ends_of_loopless_recursion :
    let s := ((start [.clock 0] .unlimited).submit 8 .program "fun f() \x7b f(); \x7d").1
    Straight [.clock 0] .unlimited s ∧ (s.accept .program "f();").2.isOk ∧
      ∃ k, (s.submit k .program "f();").2 ≠ .unfinished := by
  intro s
  have hs : Straight [.clock 0] .unlimited s := by
    have hdone : ((start [.clock 0] .unlimited).submit 8 .program
        "fun f() \x7b f(); \x7d").2.isDone := by decide +kernel
    obtain ⟨value, hvalue⟩ := Ending.exists_of_isDone hdone
    refine .submit .start (fun _ => by decide +kernel) ?_
    rw [hvalue]
    exact nofun
  have hok : (s.accept .program "f();").2.isOk := by decide +kernel
  have hloopless : LooplessText "f();" := by decide +kernel
  obtain ⟨-, k, hk, -⟩ :=
    ends_of_loopless (addsNoCode_clock 0) hs .program "f();" fun _ => hloopless
  exact ⟨hs, hok, k, hk⟩

end Session

end Lox
