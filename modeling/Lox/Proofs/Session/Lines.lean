import Lox.Proofs.Machine.Sites
import Lox.Proofs.Scope.Tokens
import Lox.Proofs.Session.Answers
import Lox.Proofs.Session.Catching
import Lox.Proofs.Session.Definedness

/-!
Every diagnostic of a session is about a line of its sources.

A refused text is complained about on its own lines. A failure is reported on the line of the
operator, name or closing parenthesis whose turn it was when it arose, and that token is part of the
text that is run or of an earlier one, whose functions may be called.
-/

namespace Lox

namespace Machine

variable {d : Setting} {m : Machine} {f : Failure} {t : Token} {x : Scene}

/-- A failure on its way out stays the same. -/
lemma failure?_step (h : m.control.failure? = some f) :
    (m.step d).control.failure? = some f := by
  obtain ⟨control, pending, env, depth, w⟩ := m
  obtain rfl := Control.failure?_eq_some.mp h
  cases pending with
  | nil => rfl
  | cons p ps => cases p <;> rfl

lemma site_of_accesses {id : NodeId} (h : m.accesses? = some (id, t)) : m.site? = some t := by
  unfold accesses? at h
  unfold site?
  split at h
  · rename_i hc
    cases h
    rw [hc]
    rfl
  · rename_i hc
    cases h
    rw [hc]
    rfl
  · rename_i hc hps
    cases h
    rw [hc, hps]
    rfl
  · cases h

/-- A fault arises on the line of the token whose turn it is. -/
lemma Invariant.exists_site (h : Invariant x m) {line : ℕ} {g : RuntimeFault}
    (hbefore : m.control.failure? = none)
    (hafter : (m.step d).control.failure? = some (.runtime line g)) :
    ∃ t, m.site? = some t ∧ t.line = line := by
  rcases step_fails_or_arises d m _ (Control.failure?_eq_some.mp hafter) with hold | harises
  · rw [Control.failure?_eq_some.mpr hold] at hbefore
    cases hbefore
  · cases harises with
    | @site t _ ht hf =>
      cases hf
      exact ⟨t, ht, rfl⟩
    | misses hmisses =>
      cases hmisses with
      | access ha => exact ⟨_, site_of_accesses ha, rfl⟩
      | unbound hc hps hinit hthis => exact absurd hthis (h.this_bound hc hps hinit)

end Machine

namespace Session

open Scope Machine

/-- A session between two inputs, every one of which has come to its end, with their texts, the
latest first. -/
inductive Heard (services : List Service) (sink : Sink) : Session → List String → Prop
  | start : Heard services sink (.start services sink) []
  | submit {s texts n mode source} : Heard services sink s texts →
      (s.submit n mode source).2 ≠ .unfinished →
      Heard services sink (s.submit n mode source).1 (source :: texts)

/-- A token of one of the texts. -/
def InTexts (texts : List String) (t : Token) : Prop := ∃ text ∈ texts, t ∈ Source.tokens text

/-- The failure arises in the next step, on the line of a token of one of the texts. -/
structure ArisesIn (texts : List String) (s : Session) (line : ℕ) (f : RuntimeFault) : Prop where
  before : s.machine.control.failure? = none
  after : s.step.machine.control.failure? = some (.runtime line f)
  site : ∃ t text, s.machine.site? = some t ∧ t.line = line ∧ text ∈ texts ∧
    t ∈ Source.tokens text ∧ Source.IsLine text line

variable {services : List Service} {sink : Sink} {s s' : Session} {past : List Session}
  {inputs : List Grammar.Input} {mode : Grammar.Mode} {source : String} {input : Grammar.Input}
  {complaints : List Complaint} {texts : List String} {n : ℕ}

/-! ### Acceptance -/

lemma isLine_of_accept (h : s.accept mode source = (s', .error complaints)) :
    ∀ c ∈ complaints, Source.IsLine source c.line := by
  unfold accept at h
  dsimp only at h
  split at h
  · rename_i cs hread
    cases h
    exact Grammar.isLine_of_read_eq_error hread
  · rename_i input hread
    obtain ⟨-, rfl, -⟩ := acceptTree_eq_error h
    exact Grammar.isLine_of_ofInput hread

/-! ### From moment to moment -/

/-- A moment of a session whose inputs were read from some texts. -/
structure Sourced (services : List Service) (sink : Sink) (texts : List String) (s : Session)
    (past : List Session) (inputs : List Grammar.Input) : Prop where
  course : Course services sink (s :: past) inputs
  read : ∀ input ∈ inputs, ∃ text ∈ texts, ∃ mode i,
    (Grammar.read mode text i).result = .ok input
  sited : Sited (InTexts texts) s.machine.pending

lemma InTexts.cons {t : Token} (h : InTexts texts t) (source : String) :
    InTexts (source :: texts) t := by
  obtain ⟨text, htext, ht⟩ := h
  exact ⟨text, List.mem_cons_of_mem _ htext, ht⟩

namespace Sourced

lemma fits (h : Sourced services sink texts s past inputs)
    (hhost : (Service.host services).AddsNoCode) : ∃ x, Fits x inputs s := by
  obtain ⟨x, t, before, ht, hx, -⟩ := h.course.fits hhost
  cases ht
  exact ⟨x, hx⟩

/-- The expression that is evaluated has its token from one of the texts. -/
lemma inTexts_eval (h : Sourced services sink texts s past inputs)
    (hhost : (Service.host services).AddsNoCode) {e : Expr} {t : Token}
    (he : s.machine.control = .eval e) (ht : e.site? = some t) : InTexts texts t := by
  obtain ⟨x, hx⟩ := h.fits hhost
  obtain ⟨S, xs, ctx, v, hv, -, -⟩ := hx.invariant.node (n := .expr e) (by rw [he]; rfl)
  obtain ⟨input, hinput, hmem⟩ := hv.mem_tokens ht
  obtain ⟨text, htext, mode, i, hread⟩ := h.read input (hx.inputs ▸ hinput)
  exact ⟨text, htext, hmem hread⟩

lemma step (h : Sourced services sink texts s past inputs)
    (hhost : (Service.host services).AddsNoCode) :
    Sourced services sink texts s.step (s :: past) inputs where
  course := h.course.step
  read := h.read
  sited := sited_step h.sited fun _ _ => h.inTexts_eval hhost

lemma resume (h : Sourced services sink texts s past inputs)
    (hhost : (Service.host services).AddsNoCode) (n : ℕ) :
    ∃ past', Sourced services sink texts (s.resume n) past' inputs := by
  induction n with
  | zero => exact ⟨past, h⟩
  | succ n ih =>
    obtain ⟨past', hn⟩ := ih
    rw [resume_succ]
    exact ⟨_, hn.step hhost⟩

lemma refused (h : Sourced services sink texts s past inputs) (hs : s.machine.isHalted)
    (ha : s.accept mode source = (s', .error complaints)) :
    Sourced services sink (source :: texts) s' (s :: past) inputs where
  course := h.course.refused hs ha
  read input hinput := by
    obtain ⟨text, htext, hread⟩ := h.read input hinput
    exact ⟨text, List.mem_cons_of_mem _ htext, hread⟩
  sited := by
    rw [(accept_eq_error ha).machine]
    exact fun p hp t ht => (h.sited p hp t ht).cons source

lemma accepted (h : Sourced services sink texts s past inputs) (hs : s.machine.isHalted)
    (ha : s.accept mode source = (s', .ok input)) :
    Sourced services sink (source :: texts) s' (s :: past) (input :: inputs) where
  course := h.course.accepted hs ha
  read := by
    refine List.forall_mem_cons.mpr ⟨?_, fun input hinput => ?_⟩
    · exact ⟨source, List.mem_cons_self .., mode, s.nextId, congrArg (·.result) (read_of_accept ha)⟩
    · obtain ⟨text, htext, hread⟩ := h.read input hinput
      exact ⟨text, List.mem_cons_of_mem _ htext, hread⟩
  sited := by
    obtain ⟨-, -, hs'⟩ := accept_eq_ok ha
    rw [hs']
    exact fun p hp => absurd hp List.not_mem_nil

/-- A failure that is new after the next step arises at a token of one of the texts. -/
lemma arisesIn (h : Sourced services sink texts s past inputs)
    (hhost : (Service.host services).AddsNoCode) {line : ℕ} {f : RuntimeFault}
    (hbefore : s.machine.control.failure? = none)
    (hafter : s.step.machine.control.failure? = some (.runtime line f)) :
    s.ArisesIn texts line f := by
  obtain ⟨x, hx⟩ := h.fits hhost
  obtain ⟨t, hsite, rfl⟩ := hx.invariant.exists_site hbefore hafter
  obtain ⟨text, htext, ht⟩ := h.sited.site (fun _ _ => h.inTexts_eval hhost) hsite
  exact ⟨hbefore, hafter, t, text, hsite, rfl, htext, ht, Source.isLine_of_mem_tokens ht⟩

end Sourced

lemma Heard.sourced (hhost : (Service.host services).AddsNoCode)
    (h : Heard services sink s texts) : s.machine.isHalted ∧ ∃ past inputs,
      Sourced services sink texts s past inputs := by
  induction h with
  | start => exact ⟨rfl, [], [], .start, fun _ hinput => absurd hinput List.not_mem_nil,
      fun _ hp => absurd hp List.not_mem_nil⟩
  | @submit s texts n mode source _ hend ih =>
    obtain ⟨hs, past, inputs, hsourced⟩ := ih
    refine ⟨isHalted_of_ending hs hend, ?_⟩
    unfold Session.submit
    obtain ⟨s', r, haccept⟩ : ∃ s' r, s.accept mode source = (s', r) := ⟨_, _, rfl⟩
    rw [haccept]
    cases r with
    | error complaints => exact ⟨_, _, hsourced.refused hs haccept⟩
    | ok input =>
      obtain ⟨past', hresumed⟩ := (hsourced.accepted hs haccept).resume hhost n
      exact ⟨_, _, hresumed⟩

/-! ### Failures -/

/-- A failure that is there after some steps has arisen in one of them. -/
lemma exists_first_failure {f : Failure} (hstart : s.machine.control.failure? = none)
    (hend : (s.resume n).machine.control.failure? = some f) : ∃ k < n,
      (s.resume k).machine.control.failure? = none ∧
        (s.resume k).step.machine.control.failure? = some f := by
  induction n with
  | zero =>
    have hsame : s.machine.control.failure? = some f := hend
    rw [hstart] at hsame
    cases hsame
  | succ n ih =>
    rw [resume_succ] at hend
    cases hn : (s.resume n).machine.control.failure? with
    | none => exact ⟨n, n.lt_succ_self, hn, hend⟩
    | some g =>
      have hsame : (s.resume n).step.machine.control.failure? = some g := failure?_step hn
      obtain rfl := Option.some.inj (hsame.symm.trans hend)
      obtain ⟨k, hk, hfirst⟩ := ih hn
      exact ⟨k, hk.trans n.lt_succ_self, hfirst⟩

lemma failure?_of_ending (hpassing : ∀ input f, s.ending input = .failed f → ¬Stray f)
    {line : ℕ} {f : RuntimeFault} (h : s.ending input = .failed (.runtime line f)) :
    s.machine.control.failure? = some (.runtime line f) := by
  have hstray := hpassing input _ h
  have hresult : s.machine.result? = some (.error (.runtime line f)) := by
    unfold ending at h
    split at h
    · cases h
    · cases h
    · rename_i g _ hg
      cases h
      exact hg
    · split at h
      · cases h
      · cases h
      · cases h
        assumption
  unfold result? at hresult
  split at hresult
  · cases hresult
  · rename_i e _ hc
    have he : e.failure = .runtime line f := Except.error.inj (Option.some.inj hresult)
    cases e with
    | leaveLoop =>
      cases he
      exact absurd ⟨0, .inl rfl⟩ hstray
    | leaveCall v =>
      cases he
      exact absurd ⟨0, .inr rfl⟩ hstray
    | fail g =>
      rw [hc]
      exact congrArg some he
  · cases hresult

/-- Every complaint about a text is about a line of it. Every failure while it runs arises at an
operator, name or closing parenthesis of the text or of an earlier one, and is reported on the line
of that. -/
theorem diagnostics_on_lines (hhost : (Service.host services).AddsNoCode)
    (h : Heard services sink s texts) (n : ℕ) (mode : Grammar.Mode) (source : String) :
    (∀ complaints, (s.submit n mode source).2 = .refused complaints →
      ∀ c ∈ complaints, Source.IsLine source c.line) ∧
    ∀ line f, (s.submit n mode source).2 = .failed (.runtime line f) →
      ∃ k < n, ((s.accept mode source).1.resume k).ArisesIn (source :: texts) line f := by
  obtain ⟨hs, past, inputs, hsourced⟩ := h.sourced hhost
  unfold Session.submit
  obtain ⟨s', r, haccept⟩ : ∃ s' r, s.accept mode source = (s', r) := ⟨_, _, rfl⟩
  rw [haccept]
  cases r with
  | error complaints =>
    refine ⟨fun cs hcs => ?_, fun line f hf => ?_⟩
    · cases hcs
      exact isLine_of_accept haccept
    · cases hf
  | ok input =>
    refine ⟨fun cs hcs => ?_, fun line f hf => ?_⟩
    · change (s'.resume n).ending input = .refused cs at hcs
      unfold ending at hcs
      split at hcs <;> first | cases hcs | (split at hcs <;> cases hcs)
    · have hnew := hsourced.accepted hs haccept
      obtain ⟨past', hresumed⟩ := hnew.resume hhost n
      obtain ⟨x, hx⟩ := hresumed.fits hhost
      obtain ⟨t, before, ht, hguarded⟩ := hresumed.course.guarded hhost
      cases ht
      have hend := failure?_of_ending (hguarded.caught hx).ending hf
      have hstart : s'.machine.control.failure? = none := by
        obtain ⟨-, -, hs'⟩ := accept_eq_ok haccept
        rw [hs']
        cases input <;> rfl
      obtain ⟨k, hk, hbefore, hafter⟩ := exists_first_failure hstart hend
      obtain ⟨pastk, hresumedk⟩ := hnew.resume hhost k
      exact ⟨k, hk, hresumedk.arisesIn hhost hbefore hafter⟩

/-- A function that an earlier text declares fails when it is called: the failure is reported on the
second line of that text. -/
theorem diagnostics_on_lines_of_earlier_text :
    let declaring := "fun f() \x7b\n  return nil();\n\x7d"
    let s := ((start [.clock 0] .unlimited).submit 20 .program declaring).1
    ∃ k < 40, ((s.accept .program "f();").1.resume k).ArisesIn ["f();", declaring] 2
      .notCallable := by
  intro declaring s
  have hheard : Heard [.clock 0] .unlimited s [declaring] := by
    refine .submit .start fun hunfinished => ?_
    have hdone : ((start [.clock 0] .unlimited).submit 20 .program declaring).2.isDone := by
      decide +kernel
    rw [hunfinished] at hdone
    cases hdone
  have hfailed : (s.submit 40 .program "f();").2 = .failed (.runtime 2 .notCallable) :=
    Ending.eq_failed (by decide +kernel)
  exact (diagnostics_on_lines (addsNoCode_clock 0) hheard 40 .program "f();").2 2 _ hfailed

end Session

end Lox
