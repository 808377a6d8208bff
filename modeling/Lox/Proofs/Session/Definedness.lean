import Lox.Proofs.Session.Activations

/-!
Local variables have a value when they are read.

The survey lets a read pass only where the declaration of its name is complete, and then the frame
of the scope binds the name. It lets every assignment pass, so one in the initializer of its own
variable is run before there is anything to assign to.
-/

namespace Lox

open Scope

namespace Machine

variable {x : Scene} {m : Machine} {S : Shape} {env : Env} {id : NodeId} {name : Token} {d : ℕ}

/-- A name that is read has a value in the scope where it is found. -/
lemma Placed.read {e : Expr} (h : Placed x env S (.expr e)) (hr : refers? e = some (id, name))
    (he : ∀ value, e ≠ .assign id name value) {l : Standing}
    (hd : S.depth? name.lexeme = some d) (hl : S[d]? = some l) : l name.lexeme = some true := by
  obtain ⟨xs, ctx, v, hv, -, rfl⟩ := h
  obtain ⟨horderly, hfits, hclean, -, -⟩ := hv.sound x.accepted
  cases e with
  | reference i n =>
    obtain ⟨rfl, rfl⟩ : i = id ∧ n = name := by simpa [refers?] using hr
    exact (Survey.shape_readName i n hfits hclean).2 d l hd hl
  | this i n =>
    obtain ⟨rfl, rfl⟩ : i = id ∧ n = name := by simpa [refers?] using hr
    have hthis : n.lexeme = "this" := by
      obtain ⟨-, hthis⟩ := horderly
      exact hthis n rfl
    obtain ⟨k, b, hk, hb⟩ := Shape.depth?_eq_some hd
    obtain rfl : k = l := Option.some.inj (hk.symm.trans hl)
    cases b with
    | true => exact hb
    | false => exact absurd (hthis ▸ hb) (Survey.Apt.not_waiting_this hfits hl)
  | assign i n value =>
    obtain ⟨rfl, rfl⟩ : i = id ∧ n = name := by simpa [refers?] using hr
    exact absurd rfl (he value)
  | _ => simp [refers?] at hr

/-- The end of an initializer finds the object it is bound to. -/
lemma Invariant.this_bound (h : Invariant x m) (hc : m.control.isOutcome) {c : Closure}
    {ps : List Pending} (hps : m.pending = .leaveCall env c :: ps) (hinit : c.isInitializer) :
    m.world.frames.getAt? c.env 0 "this" ≠ none := by
  obtain ⟨control, pending, env', depth, w⟩ := m
  obtain rfl : pending = .leaveCall env c :: ps := hps
  -- only the end of a call waits in this way
  have hclosure : ∀ {q S}, Waits x q env' S (.leaveCall env c :: ps) → ClosureOk x c := by
    intro q S hw
    cases hw with
    | operand hp => exact hp.elim
    | head hp => exact hp.elim
    | ofDeclaration hw => cases hw
    | leaveCall _ _ hclosure => exact hclosure
  have hok : ClosureOk x c := by
    cases h.runs with
    | value _ _ hw => exact hclosure hw
    | exit _ hw => exact hclosure hw
    | _ => cases hc
  obtain ⟨f, hf, hbinds⟩ := hok.initializer hinit
  rw [← h.world.frames] at hbinds
  unfold Frames.getAt?
  rw [hf]
  exact Option.isSome_iff_ne_none.mp hbinds

end Machine

namespace Session

open Machine

variable {services : List Service} {sink : Sink} {s : Session} {past : List Session}
  {inputs : List Grammar.Input} {name : Token} {d : ℕ} {id : NodeId}

/-- An assignment that is about to be made in the initializer of the declaration of its own
variable. -/
def AssignsInOwnInitializer (inputs : List Grammar.Input) (s : Session) (id : NodeId)
    (name : Token) : Prop :=
  (∃ ps, s.machine.pending = .assign id name :: ps) ∧ s.distances[id]? = some 0 ∧
    ∃ value xs ctx v, Visited inputs xs (.expr (.assign id name value)) ctx v ∧
      v.isWaiting name.lexeme

/-- At a recorded distance there is a variable, or the survey came to its assignment while the name
was still waiting for a value. -/
lemma Fits.found {x : Scene} (h : Fits x inputs s) (ha : s.machine.accesses? = some (id, name))
    (hd : s.distances[id]? = some d) :
    (∃ f, s.machine.env[d]? = some f ∧ s.machine.world.frames.binds name.lexeme f) ∨
      s.AssignsInOwnInitializer inputs id name := by
  obtain ⟨e, S, hr, hp, hs, hassign⟩ := h.invariant.access ha
  have hplaced := hp
  obtain ⟨xs, ctx, v, hv, -, hshape⟩ := hplaced
  have hdepth : S.depth? name.lexeme = some d := by
    rw [← hshape, ← h.recorded.getElem?_eq (h.inputs ▸ hv) hr, hd]
  obtain ⟨l, b, hl, hb⟩ := Shape.depth?_eq_some hdepth
  have hbound : l name.lexeme = some true → ∃ f, s.machine.env[d]? = some f ∧
      s.machine.world.frames.binds name.lexeme f := by
    intro htrue
    rw [h.invariant.world.frames]
    exact hs.bound d l _ hl htrue
  by_cases he : ∃ value, e = .assign id name value
  · obtain ⟨value, rfl⟩ := he
    cases b with
    | true => exact .inl (hbound hb)
    | false =>
      obtain ⟨rfl, -⟩ := hp.fits d l hl _ hb
      have hwaiting : v.isWaiting name.lexeme := Survey.isWaiting_iff.mpr ⟨l, hshape ▸ hl, hb⟩
      exact .inr ⟨hassign value rfl, hd, value, xs, ctx, v, h.inputs ▸ hv, hwaiting⟩
  · exact .inl (hbound (hp.read hr (fun value heq => he ⟨value, heq⟩) hdepth hl))

/-- Only a reference that is left to the globals, or an assignment in the initializer of its own
variable, is ever reported as undefined. -/
theorem undefined_only_global_or_own_initializer (hhost : (Service.host services).AddsNoCode)
    (h : Course services sink (s :: past) inputs) {line : ℕ} {undefined : String}
    (hnew : s.machine.control.failure? ≠ some (.runtime line (.undefinedVariable undefined)))
    (hfail : s.step.machine.control.failure? =
      some (.runtime line (.undefinedVariable undefined))) :
    ∃ id name, s.machine.accesses? = some (id, name) ∧ name.lexeme = undefined ∧
      name.line = line ∧ (s.distances[id]? = none ∨ s.AssignsInOwnInitializer inputs id name) := by
  obtain ⟨x, _, _, hpast, hx, -⟩ := h.fits hhost
  obtain ⟨rfl, rfl⟩ := List.cons.inj hpast
  rcases step_fails ⟨s.distances, s.host⟩ s.machine _ (Control.failure?_eq_some.mp hfail) with
    hold | hordinary | hmisses
  · exact absurd (Control.failure?_eq_some.mpr hold) hnew
  · exact hordinary.elim
  · cases hmisses with
    | @access id name ha hnone =>
      refine ⟨id, name, ha, rfl, rfl, ?_⟩
      cases hd : s.distances[id]? with
      | none => exact .inl rfl
      | some d =>
        refine .inr ((hx.found ha hd).resolve_left ?_)
        rintro ⟨f, hf, hbinds⟩
        rw [holderOf?_eq_some hd hf hbinds] at hnone
        cases hnone
    | unbound hc hps hinit hnone => exact absurd hnone (hx.invariant.this_bound hc hps hinit)

/-- A global variable that was never declared is read. -/
theorem undefined_global_is_reported :
    let s := ((start [.clock 0] .unlimited).accept .program "print a;").1.resume 2
    s.step.machine.control.failure? = some (.runtime 1 (.undefinedVariable "a")) ∧
      ∃ inputs id name, s.machine.accesses? = some (id, name) ∧ name.lexeme = "a" ∧
        name.line = 1 ∧ (s.distances[id]? = none ∨ s.AssignsInOwnInitializer inputs id name) := by
  intro s
  have hfail : s.step.machine.control.failure? = some (.runtime 1 (.undefinedVariable "a")) := by
    decide +kernel
  have hnew : s.machine.control.failure? ≠ some (.runtime 1 (.undefinedVariable "a")) := by
    decide +kernel
  obtain ⟨more, input, -, hcourse⟩ :=
    Course.first [.clock 0] .unlimited .program "print a;" (by decide +kernel) 2
  exact ⟨hfail, [input],
    undefined_only_global_or_own_initializer (addsNoCode_clock 0) hcourse hnew hfail⟩

/-- In the initializer of its own variable an assignment passes the survey, is recorded at
distance zero, and is reported as undefined when it is run. -/
theorem own_initializer_assignment_undefined :
    let s := (start [] .unlimited).run 40 "\x7b var a = (a = nil); print a; \x7d"
    s.1.distances[1]? = some 0 ∧
      (s.2 matches .failed (.runtime 1 (.undefinedVariable "a"))) ∧ s.1.output = .empty := by
  decide +kernel

end Session

end Lox
