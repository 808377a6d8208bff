import Lox.Proofs.Machine.Calling
import Lox.Proofs.Session.Course

/-!
The limit on the depth of calls is exact, in any session.

At every moment the depth is the number of functions that are being called. A call fails for want of
room exactly where the limit is reached, and once the failure has come to the top level all the room
is there again.
-/

namespace Lox.Session

open Machine

/-- What is known of the calls in progress at a moment of a session. -/
structure Counts (s : Session) : Prop where
  /-- The depth is the number of the functions that are being called, which is within the limit. -/
  depth : s.machine.depth = s.machine.activations.length
  le : s.machine.activations.length ≤ maxDepth
  /-- A function that is attempted at the limit is not entered, and the failure is reported at its
  site. -/
  full : ∀ c args site, s.machine.Attempts c args site →
    s.machine.activations.length = maxDepth →
    s.step.machine.Overflows site.line ∧ s.step.machine.activations = s.machine.activations
  /-- Below the limit it is entered, and counts. -/
  room : ∀ c args site, s.machine.Attempts c args site →
    s.machine.activations.length < maxDepth →
    s.step.machine.control = .execAll c.decl.body ∧
      s.step.machine.activations = c :: s.machine.activations
  /-- No other step makes this report. -/
  report : ∀ line, s.step.machine.Overflows line → s.machine.Overflows line ∨
    ∃ c args site, s.machine.Attempts c args site ∧ site.line = line ∧
      s.machine.activations.length = maxDepth
  /-- No other step changes what is being called, unless it leaves the innermost function. -/
  others : (∀ c args site, ¬s.machine.Attempts c args site) →
    s.step.machine.activations = s.machine.activations ∨
      ∃ c, s.machine.activations = c :: s.step.machine.activations
  /-- Native functions and objects without an initializer are made out of the count. -/
  uncounted : ∀ callee args site, s.machine.calls? = some (callee, args, site) →
    Uncounted callee → s.step.machine.activations = s.machine.activations ∧
      ∀ line, ¬s.step.machine.Overflows line
  /-- Between two inputs nothing is being called. -/
  rest : s.machine.isHalted → s.machine.activations = []

variable {services : List Service} {sink : Sink} {s : Session} {past : List Session}
  {inputs : List Grammar.Input}

lemma activations_of_isHalted (h : s.machine.isHalted) : s.machine.activations = [] := by
  unfold activations
  rw [(isHalted_iff.mp h).1]
  rfl

/-- The control at a call is a value, and no report. -/
lemma not_overflows_of_calls {callee : Value} {args : List Value} {site : Token}
    (h : s.machine.calls? = some (callee, args, site)) (line : ℕ) :
    ¬s.machine.Overflows line := by
  intro hover
  unfold calls? at h
  rw [show s.machine.control = _ from hover] at h
  split at h <;> simp_all

/-- All this follows from the depth. -/
lemma counts_of_balanced (h : Balanced s.machine) : Counts s := by
  obtain ⟨hdepth, hle⟩ := balanced_iff.mp h
  let d : Setting := ⟨s.distances, s.host⟩
  have hmoves : Moves s.machine s.step.machine := step_moves d s.machine
  refine ⟨hdepth, hle, fun c args site ha hfull => ?_, fun c args site ha hroom => ?_,
    fun line hover => ?_, fun hnone => ?_, fun callee args site hcalls hcallee => ?_,
    activations_of_isHalted⟩
  · obtain ⟨b, p, ps, -, hb, -, hstep⟩ := ha.step d
    have hfull' : maxDepth ≤ b.depth := by
      rw [hb.depth, hdepth, hfull]
    obtain ⟨hover, hactivations⟩ := @enter_of_full b c args site hfull'
    have hstep' : s.step.machine = b.enter c args site := hstep
    rw [hstep', hactivations]
    exact ⟨hover, hb.activations⟩
  · obtain ⟨b, p, ps, -, hb, -, hstep⟩ := ha.step d
    have hroom' : b.depth < maxDepth := by
      rwa [hb.depth, hdepth]
    obtain ⟨hcontrol, hactivations, -⟩ := @enter_of_room b c args site hroom'
    have hstep' : s.step.machine = b.enter c args site := hstep
    rw [hstep', hactivations, hb.activations]
    exact ⟨hcontrol, rfl⟩
  · cases hmoves with
    | calm hcalm => exact .inl (hcalm.overflows line hover)
    | leaves _ _ _ hkeeps => exact .inl (hkeeps line hover)
    | @attempts b c args site ha hb hstep =>
      rw [hstep] at hover
      by_cases hroom : b.depth < maxDepth
      · obtain ⟨hcontrol, -⟩ := @enter_of_room b c args site hroom
        cases hcontrol.symm.trans hover
      · refine .inr ⟨c, args, site, ha, ?_, ?_⟩
        · obtain ⟨hsite, -⟩ := @enter_of_full b c args site (Nat.le_of_not_lt hroom)
          cases hsite.symm.trans hover
          rfl
        · rw [hb.depth, hdepth] at hroom
          omega
  · cases hmoves with
    | calm hcalm => exact .inl hcalm.activations
    | attempts ha => exact absurd ha (hnone _ _ _)
    | @leaves env c ps hm hn =>
      refine .inr ⟨c, ?_⟩
      unfold activations
      rw [hm, hn]
      rfl
  · obtain ⟨p, ps, hm, hp, hstep⟩ := step_calls (s := d) hcalls
    have hstep' : s.step.machine =
        ({ s.machine with pending := ps } : Machine).call d callee args site := hstep
    have hcall : Calm s.machine s.step.machine := by
      rw [hstep']
      exact (calm_popped hm hp).trans (calm_call_uncounted hcallee)
    exact ⟨hcall.activations, fun line hover =>
      not_overflows_of_calls hcalls line (hcall.overflows line hover)⟩

/-- At every moment the calls in progress are counted. -/
lemma Course.balanced (h : Course services sink past inputs) :
    ∀ s ∈ past, Balanced s.machine := by
  induction h with
  | start => exact List.forall_mem_singleton.mpr ⟨rfl, Nat.zero_le _⟩
  | @step s past inputs h ih =>
    have hs := ih s (List.mem_cons_self ..)
    exact List.forall_mem_cons.mpr ⟨hs.moves (step_moves _ s.machine), ih⟩
  | @refused s s' past inputs mode source complaints h hs ha ih =>
    refine List.forall_mem_cons.mpr ⟨?_, ih⟩
    rw [(accept_eq_error ha).machine]
    exact ih s (List.mem_cons_self ..)
  | @accepted s s' past inputs mode source input h hs ha ih =>
    refine List.forall_mem_cons.mpr ⟨?_, ih⟩
    have hbefore := ih s (List.mem_cons_self ..)
    obtain ⟨-, -, hs'⟩ := accept_eq_ok ha
    rw [hs']
    have hcalls := hbefore.calls
    rw [(isHalted_iff.mp hs).1] at hcalls
    exact ⟨hcalls, hbefore.le⟩

end Lox.Session
