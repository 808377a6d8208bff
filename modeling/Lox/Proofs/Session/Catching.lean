import Lox.Proofs.Machine.Catching
import Lox.Proofs.Session.Activations

/-!
No `break` and no `return` gets out of its construct, in any session.
-/

namespace Lox

open Scope

namespace Machine

variable {x : Scene} {m : Machine} {ps qs : List Pending}

/-! ### Calls in progress -/

lemma Waits.closureOk {q : Stage} {env env' : Env} {S : Shape} {c : Closure}
    (h : Waits x q env S ps) (hc : .leaveCall env' c ∈ ps) : ClosureOk x c := by
  induction h with
  | value => cases hc
  | finish => cases hc
  | operand hp _ ih =>
    rcases List.mem_cons.mp hc with rfl | hc
    · exact hp.elim
    · exact ih hc
  | head hp _ ih =>
    rcases List.mem_cons.mp hc with rfl | hc
    · exact hp.elim
    · exact ih hc
  | ofDeclaration _ ih => exact ih hc
  | initial _ _ ih => exact ih ((List.mem_cons.mp hc).resolve_left Pending.noConfusion)
  | loopBody _ _ _ ih => exact ih ((List.mem_cons.mp hc).resolve_left Pending.noConfusion)
  | sequence _ _ ih => exact ih ((List.mem_cons.mp hc).resolve_left Pending.noConfusion)
  | leaveBlock _ _ _ ih => exact ih ((List.mem_cons.mp hc).resolve_left Pending.noConfusion)
  | leaveCall _ _ hclosure _ ih =>
    rcases List.mem_cons.mp hc with heq | hc
    · cases heq
      exact hclosure
    · exact ih hc

/-- Every function in progress comes from an accepted input. -/
lemma Invariant.callsOk (h : Invariant x m) : CallsOk m.pending := by
  intro env c hc
  obtain ⟨control, pending, env', depth, w⟩ := m
  have hclosure : ClosureOk x c := by
    cases h.runs with
    | eval _ _ hw => exact hw.closureOk hc
    | exec _ _ hw => exact hw.closureOk hc
    | execAll _ _ hw => exact hw.closureOk hc
    | value _ _ hw => exact hw.closureOk hc
    | exit _ hw => exact hw.closureOk hc
  obtain ⟨S, body, ⟨xs, ctx, v, hv, -, -⟩, -⟩ := hclosure.placed
  exact (hv.admissible x.accepted).2

lemma depth_homeFrom (hqs : ∀ q ∈ qs, ¬q.isCall) (env : Env) (depth : ℕ) :
    (homeFrom qs env depth).2 = depth := by
  induction qs generalizing env with
  | nil => rfl
  | cons q qs ih =>
    obtain ⟨hq, hrest⟩ := List.forall_mem_cons.mp hqs
    cases q with
    | leaveCall env c => exact absurd rfl hq
    | _ => exact ih hrest _

/-- A `break` ends the loop once all between has been passed. -/
lemma run_break {d : Setting} {keyword : Token} {c : Expr} {body : Stmt} {env : Env} {depth : ℕ}
    {w : World} (hqs : ∀ q ∈ qs, ¬q.isLoop ∧ ¬q.isCall) :
    run d (qs.length + 2)
        ⟨.exec (.breakLoop keyword), qs ++ .loopBody c body :: ps, env, depth, w⟩ =
      ⟨.value .nil, ps, (homeFrom qs env depth).1, depth, w⟩ := by
  have hraise : ∀ n, run d (n + 1)
      ⟨.exec (.breakLoop keyword), qs ++ .loopBody c body :: ps, env, depth, w⟩ =
        run d n ⟨.exit .leaveLoop, qs ++ .loopBody c body :: ps, env, depth, w⟩ := by
    intro n
    rw [run, if_neg (by simp [isHalted])]
    rfl
  have hpass : ∀ q ∈ qs, ∀ v, ¬(Exit.leaveLoop = .leaveLoop ∧ q.isLoop) ∧
      ¬(Exit.leaveLoop = .leaveCall v ∧ q.isCall) :=
    fun q hq v => ⟨fun h => (hqs q hq).1 h.2, fun h => (hqs q hq).2 h.2⟩
  rw [hraise, run_add, run_exit hpass, depth_homeFrom fun q hq => (hqs q hq).2]
  rfl

/-- A `return` ends the call once all between has been passed. -/
lemma run_return {d : Setting} {v : Value} {c : Closure} {env env' : Env} {depth : ℕ} {w : World}
    (hqs : ∀ q ∈ qs, ¬q.isCall) :
    run d (qs.length + 1) ⟨.exit (.leaveCall v), qs ++ .leaveCall env c :: ps, env', depth, w⟩ =
      leave ⟨.exit (.leaveCall v), ps, env', depth, w⟩ env c v := by
  have hpass : ∀ q ∈ qs, ∀ u, ¬(Exit.leaveCall v = .leaveLoop ∧ q.isLoop) ∧
      ¬(Exit.leaveCall v = .leaveCall u ∧ q.isCall) :=
    fun q hq u => ⟨fun h => Exit.noConfusion h.1, fun h => hqs q hq h.2⟩
  rw [run_add, run_exit hpass, depth_homeFrom hqs]
  rfl

lemma eq_of_control (m : Machine) {control : Control} (hc : m.control = control)
    (hps : m.pending = ps) : m = ⟨control, ps, m.env, m.depth, m.world⟩ := by
  subst hc hps
  rfl

end Machine

namespace Session

open Machine

/-- A report that a `break` or a `return` has left its construct. -/
def Stray (f : Failure) : Prop :=
  ∃ line, f = .runtime line .strayBreak ∨ f = .runtime line .strayReturn

/-- At a moment of a session every `break` and `return` is on its way to its construct. -/
structure Caught (s : Session) : Prop where
  /-- A `break` ends the innermost loop that it is part of; no call is in progress in between. -/
  ofBreak : ∀ keyword, s.machine.control = .exec (.breakLoop keyword) →
    ∃ qs c body ps, s.machine.pending = qs ++ .loopBody c body :: ps ∧
      (∀ q ∈ qs, ¬q.isLoop ∧ ¬q.isCall) ∧ (Stmt.breakLoop keyword).Part false body ∧
      (s.resume (qs.length + 2)).machine = { s.machine with
        control := .value .nil
        pending := ps
        env := (homeFrom qs s.machine.env s.machine.depth).1 }
  /-- A `return` ends the innermost call, in whose body it stands, once it has its value. -/
  ofReturn : ∀ keyword value, s.machine.control = .exec (.returnFrom keyword value) →
    ∃ qs env c ps, s.machine.pending = qs ++ .leaveCall env c :: ps ∧
      (∀ q ∈ qs, ¬q.isCall) ∧ (∃ b ∈ c.decl.body, (Stmt.returnFrom keyword value).Part true b) ∧
      ∀ r v, Returns ⟨s.distances, s.host⟩ s.machine.pending s.step.machine r →
        r.control = .exit (.leaveCall v) →
        r.run ⟨s.distances, s.host⟩ (qs.length + 1) = { r with pending := ps }.leave env c v
  /-- Whatever is on its way out has something further out that catches it. -/
  passing : ∀ e, s.machine.control = .exit e → e.Lodged s.machine.pending
  /-- None gets to the top level. -/
  ending : ∀ input f, s.ending input = .failed f → ¬Stray f

variable {services : List Service} {sink : Sink} {s : Session} {past : List Session}
  {inputs : List Grammar.Input}

/-! ### Single moments -/

lemma resume_machine (s : Session) (n : ℕ) :
    (s.resume n).machine = s.machine.run ⟨s.distances, s.host⟩ n := rfl

lemma caught_break (hinputs : ∀ input ∈ inputs, Accepted input)
    (hl : Lodging inputs s.machine) (hcalls : CallsOk s.machine.pending) {keyword : Token}
    (hc : s.machine.control = .exec (.breakLoop keyword)) :
    ∃ qs c body ps, s.machine.pending = qs ++ .loopBody c body :: ps ∧
      (∀ q ∈ qs, ¬q.isLoop ∧ ¬q.isCall) ∧ (Stmt.breakLoop keyword).Part false body ∧
      (s.resume (qs.length + 2)).machine = { s.machine with
        control := .value .nil
        pending := ps
        env := (homeFrom qs s.machine.env s.machine.depth).1 } := by
  have hstands := hl.control
  rw [hc] at hstands
  obtain ⟨qs, c, body, ps, hps, hqs, hpart⟩ := Stands.break_ hinputs hcalls hstands
  refine ⟨qs, c, body, ps, hps, hqs, hpart, ?_⟩
  rw [resume_machine, eq_of_control s.machine hc hps]
  exact run_break hqs

lemma caught_return (hinputs : ∀ input ∈ inputs, Accepted input)
    (hl : Lodging inputs s.machine) {keyword : Token} {value : Option Expr}
    (hc : s.machine.control = .exec (.returnFrom keyword value)) :
    ∃ qs env c ps, s.machine.pending = qs ++ .leaveCall env c :: ps ∧
      (∀ q ∈ qs, ¬q.isCall) ∧ (∃ b ∈ c.decl.body, (Stmt.returnFrom keyword value).Part true b) ∧
      ∀ r v, Returns ⟨s.distances, s.host⟩ s.machine.pending s.step.machine r →
        r.control = .exit (.leaveCall v) →
        r.run ⟨s.distances, s.host⟩ (qs.length + 1) = { r with pending := ps }.leave env c v := by
  have hstands := hl.control
  rw [hc] at hstands
  obtain ⟨qs, env, c, ps, hps, hqs, hpart⟩ := Stands.return_ hinputs hl.pending hstands
  refine ⟨qs, env, c, ps, hps, hqs, hpart, fun r v hr hv => ?_⟩
  rw [eq_of_control r hv (hr.pending.trans hps)]
  exact run_return hqs

lemma not_stray_ending (hpassing : ∀ e, s.machine.control = .exit e → e.Lodged s.machine.pending)
    (hstray : ∀ f, s.machine.control = .exit (.fail f) → ¬Stray f) {input : Grammar.Input}
    {f : Failure} (h : s.ending input = .failed f) : ¬Stray f := by
  have hresult : ∀ g, s.machine.result? = some (.error g) → ¬Stray g := by
    intro g hg
    unfold result? at hg
    split at hg
    · cases hg
    · rename_i e hps hc
      cases hg
      have hlodged := hpassing e hc
      rw [hps] at hlodged
      cases e with
      | leaveLoop =>
        obtain ⟨qs, c, body, rest, heq, -⟩ := hlodged
        cases qs <;> cases heq
      | leaveCall v =>
        obtain ⟨qs, env, c, rest, heq, -⟩ := hlodged
        cases qs <;> cases heq
      | fail f => exact hstray f hc
    · cases hg
  unfold ending at h
  split at h
  · cases h
  · cases h
  · rename_i g _ hg
    cases h
    exact hresult _ hg
  · split at h
    · cases h
      rintro ⟨line, h | h⟩ <;> cases h
    · cases h
    · cases h
      exact hresult _ (by assumption)

/-! ### From moment to moment -/

/-- A step never reports a stray `break` or `return`. -/
lemma not_stray_step (h : ∀ f, s.machine.control = .exit (.fail f) → ¬Stray f) :
    ∀ f, s.step.machine.control = .exit (.fail f) → ¬Stray f := by
  intro f hf
  rcases step_fails _ s.machine f hf with hold | hordinary | hmisses
  · exact h f hold
  · rintro ⟨line, rfl | rfl⟩
    · exact hordinary
    · exact hordinary
  · rintro ⟨line, rfl | rfl⟩ <;> cases hmisses

/-- What is known at each moment beyond its scene. -/
structure Guarded (inputs : List Grammar.Input) (s : Session) : Prop where
  lodging : Lodging inputs s.machine
  stray : ∀ f, s.machine.control = .exit (.fail f) → ¬Stray f

lemma Guarded.caught {x : Scene} (h : Guarded inputs s) (hx : Fits x inputs s) : Caught s := by
  have hinputs : ∀ input ∈ inputs, Accepted input := hx.recorded.accepted
  have hcalls := hx.invariant.callsOk
  have hpassing : ∀ e, s.machine.control = .exit e → e.Lodged s.machine.pending := by
    intro e he
    have hlodged := h.lodging.control
    rwa [he] at hlodged
  constructor
  · exact fun keyword hc => caught_break hinputs h.lodging hcalls hc
  · exact fun keyword value hc => caught_return hinputs h.lodging hc
  · exact hpassing
  · exact fun input f => not_stray_ending hpassing h.stray

lemma Guarded.step {x : Scene} (h : Guarded inputs s) (hx : Fits x inputs s) :
    Guarded inputs s.step :=
  ⟨h.lodging.step hx.recorded.accepted hx.invariant.callsOk, not_stray_step h.stray⟩

lemma guarded_load {input : Grammar.Input} (s : Session) :
    Guarded (input :: inputs) (s.load input) := by
  cases input with
  | expression e =>
    refine ⟨⟨trivial, trivial⟩, fun f hf => ?_⟩
    cases hf
  | statements body =>
    refine ⟨⟨fun d hd => ⟨d, ?_, .refl⟩, trivial⟩, fun f hf => ?_⟩
    · exact List.mem_flatMap.mpr ⟨_, List.mem_cons_self .., hd⟩
    · cases hf

lemma Course.guarded (hhost : (Service.host services).AddsNoCode)
    (h : Course services sink past inputs) : ∃ s before, past = s :: before ∧ Guarded inputs s := by
  induction h with
  | start =>
    refine ⟨_, _, rfl, ⟨trivial, trivial⟩, fun f hf => ?_⟩
    cases hf
  | step h ih =>
    obtain ⟨s, before, hs, hguarded⟩ := ih
    obtain ⟨x, t, _, ht, hx, -⟩ := h.fits hhost
    cases hs
    cases ht
    exact ⟨_, _, rfl, hguarded.step hx⟩
  | refused _ _ ha ih =>
    obtain ⟨s, before, hs, hguarded⟩ := ih
    cases hs
    have hmachine := (accept_eq_error ha).machine
    exact ⟨_, _, rfl, hmachine ▸ hguarded.lodging, hmachine ▸ hguarded.stray⟩
  | accepted _ _ ha ih =>
    obtain ⟨-, -, hs'⟩ := accept_eq_ok ha
    exact ⟨_, _, rfl, hs' ▸ guarded_load _⟩

/-- At every moment of a session, every `break` is caught by the innermost loop it stands in and
every `return` by the call of the function it stands in, and none ever gets to the top level. -/
theorem break_and_return_caught (hhost : (Service.host services).AddsNoCode)
    (h : Course services sink past inputs) : ∀ s ∈ past, Caught s := by
  -- what is known of the last moment is known of each, for each was the last once
  have hlast : ∀ {past inputs}, Course services sink past inputs →
      ∃ s before, past = s :: before ∧ Caught s := by
    intro past inputs h
    obtain ⟨s, before, rfl, hguarded⟩ := h.guarded hhost
    obtain ⟨x, t, _, ht, hx, -⟩ := h.fits hhost
    cases ht
    exact ⟨_, _, rfl, hguarded.caught hx⟩
  have hcons : ∀ {s : Session} {past inputs}, Course services sink (s :: past) inputs →
      (∀ t ∈ past, Caught t) → ∀ t ∈ s :: past, Caught t := by
    intro s past inputs h hpast
    obtain ⟨t, before, heq, ht⟩ := hlast h
    cases heq
    exact List.forall_mem_cons.mpr ⟨ht, hpast⟩
  induction h with
  | start => exact hcons .start fun t ht => absurd ht List.not_mem_nil
  | step h ih => exact hcons h.step ih
  | refused h hs ha ih => exact hcons (h.refused hs ha) ih
  | accepted h hs ha ih => exact hcons (h.accepted hs ha) ih

/-- A function returns from within a loop, and a loop is left when it has. -/
theorem break_and_return_caught_in_loops : ∃ (past : List Session) (input : Grammar.Input),
    60 ≤ past.length ∧ Course [.clock 0] .unlimited past [input] ∧ ∀ s ∈ past, Caught s := by
  obtain ⟨more, input, hlength, h⟩ := Course.first [.clock 0] .unlimited .program
    "fun f() \x7b while (true) return nil; \x7d while (true) if (f() == nil) break;"
    (by decide +kernel) 60
  exact ⟨_, input, hlength.trans (Nat.le_succ _), h,
    break_and_return_caught (addsNoCode_clock 0) h⟩

end Session

end Lox
