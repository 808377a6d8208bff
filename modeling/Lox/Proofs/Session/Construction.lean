import Lox.Proofs.Machine.Initializers
import Lox.Proofs.Session.Binding
import Lox.Proofs.Session.Catching

/-!
Construction yields the new object, in any session.

However the call of an initializer comes to its end, unless the run fails there, it gives the object
to which the initializer is bound. The number of a new object is above all that were ever held.
-/

namespace Lox

open Scope

namespace Machine

/-- What has come of a run is this value, unless it has failed. -/
def Control.Yields (v : Value) (c : Control) : Prop :=
  c = .value v ∨ ∃ f, c = .exit (.fail f)

variable {s : Setting} {m : Machine} {o : Value} {c : Closure} {ps : List Pending}

lemma Control.Yields.isOutcome {control : Control} (h : control.Yields o) : control.isOutcome := by
  rcases h with rfl | ⟨f, rfl⟩ <;> rfl

/-- An initializer is left with the object to which it is bound. -/
lemma yields_leave {env : Env} {f : FrameId} {v : Value} (hinit : c.isInitializer)
    (henv : c.env.head? = some f) (ho : m.Receives f o) :
    (m.leave env c v).control.Yields o ∧ (m.leave env c v).pending = m.pending := by
  have hthis : m.world.frames.getAt? c.env 0 "this" = some o := by
    unfold Frames.getAt?
    rw [← List.head?_eq_getElem?, henv]
    exact ho.own?.trans (if_pos rfl)
  unfold leave
  dsimp only
  rw [if_pos hinit, hthis]
  exact ⟨.inl rfl, rfl⟩

/-- So it is left at the end of its call. -/
lemma yields_leaveCall {env : Env} {f : FrameId} (hps : m.pending = .leaveCall env c :: ps)
    (hc : m.control.isOutcome) (hloop : m.control ≠ .exit .leaveLoop) (hinit : c.isInitializer)
    (henv : c.env.head? = some f) (ho : m.Receives f o) :
    (m.step s).control.Yields o ∧ (m.step s).pending = ps := by
  unfold step
  cases hcontrol : m.control with
  | value v =>
    rw [hps]
    exact yields_leave (m := { m with pending := ps }) hinit henv ho
  | exit x =>
    rw [hps]
    cases x with
    | leaveLoop => exact absurd hcontrol hloop
    | leaveCall v => exact yields_leave (m := { m with pending := ps }) hinit henv ho
    | fail f => exact ⟨.inr ⟨f, rfl⟩, rfl⟩
  | _ =>
    rw [hcontrol] at hc
    cases hc

/-- Where an object waits for the end of its initializer, it is given. -/
lemma yields_construct {v : Value} {r : Machine} (hps : m.pending = .construct o :: ps)
    (hc : m.control.Yields v) (hr : Returns s ps m r) : r.control.Yields o := by
  have hstep : (m.step s).control.Yields o ∧ (m.step s).pending = ps := by
    unfold step
    rcases hc with hc | ⟨f, hc⟩
    · rw [hc, hps]
      exact ⟨.inl rfl, rfl⟩
    · rw [hc, hps]
      exact ⟨.inr ⟨f, rfl⟩, rfl⟩
  obtain ⟨hyields, hpending⟩ := hstep
  cases hr with
  | here hps' =>
    have hlength := congrArg List.length (hps.symm.trans hps')
    rw [List.length_cons] at hlength
    omega
  | later _ hrest => rwa [hrest.eq hpending hyields.isOutcome]

end Machine

namespace Session

open Machine

variable {services : List Service} {sink : Sink} {s s' : Session} {past : List Session}
  {inputs : List Grammar.Input} {ps : List Pending} {o : Value} {c : Closure} {args : List Value}
  {site : Token}

/-! ### What is known all along -/

/-- At one of the moments a method was bound, which makes this function. -/
def WasBound (past : List Session) (c : Closure) : Prop :=
  ∃ t ∈ past, ∃ o d, t.machine.Binds o d ∧ c = d.within t.machine.world.frames.next

/-- What is known of a moment after some others. -/
structure Known (inputs : List Grammar.Input) (past : List Session) (s : Session) : Prop where
  marked : WellMarked inputs (WasBound past) s.machine
  silent : Silent s.machine
  numbered : ∀ t ∈ s :: past, t.machine.Numbered ∧
    t.machine.world.nextOwner ≤ s.machine.world.nextOwner

lemma wasBound_cons (h : WasBound past c) : WasBound (s :: past) c := by
  obtain ⟨t, ht, hc⟩ := h
  exact ⟨t, List.mem_cons_of_mem _ ht, hc⟩

/-- At the start there are no values but plain ones. -/
lemma isPlain_of_holds_start {v : Value} (h : (Session.start services sink).machine.Holds v) :
    v.IsPlain := by
  cases h with
  | inHand hv =>
    cases hv
    trivial
  | leaving hv => cases hv
  | waiting hp => cases hp
  | @bound f name hv =>
    have hpush := Frames.own?_push Frames.empty (Service.table services) f name
    rw [show (Session.start services sink).machine.world.frames.own? f name = _ from hpush] at hv
    split at hv
    · obtain ⟨service, -, hpair⟩ := List.mem_map.mp (Table.mem_of_get?_ofList hv)
      obtain ⟨-, rfl⟩ := Prod.mk.inj hpair
      trivial
    · cases hv
  | field hv => cases hv

/-- A machine that is loaded holds nothing that it did not hold before. -/
lemma holds_of_load {v : Value} {input : Grammar.Input} (h : (s.load input).machine.Holds v) :
    s.machine.Holds v := by
  cases h with
  | inHand hv => cases input <;> cases hv
  | leaving hv => cases input <;> cases hv
  | waiting hp => cases hp
  | bound hv => exact .bound hv
  | field hv => exact .field hv

namespace Known

lemma start : Known [] [] (Session.start services sink) where
  marked := by
    refine ⟨fun v hv => rightful_of_isPlain (isPlain_of_holds_start hv), fun c hc => ?_⟩
    cases hc
  silent := by
    refine ⟨fun v c hc => ?_, fun ps c hps => ?_⟩
    · cases hc
    · exact absurd (List.suffix_nil.mp hps) (List.cons_ne_nil _ _)
  numbered := by
    refine List.forall_mem_singleton.mpr ⟨fun v n hv hn => ?_, Nat.le_refl _⟩
    have hplain := isPlain_of_holds_start hv
    cases v with
    | classValue id k => exact hplain.elim
    | object id k => exact hplain.elim
    | _ => cases hn

lemma step (h : Known inputs past s) (hhost : s.host.AddsNoCode) {x : Scene} (hx : Fits x inputs s)
    (hl : Lodging inputs s.machine) : Known inputs (s :: past) s.step where
  marked := by
    have hmarked := h.marked.mono (List.Subset.refl _) fun c => wasBound_cons (s := s)
    rw [← hx.inputs] at hmarked ⊢
    refine hmarked.step hx.invariant (fun o c hb => ?_) hhost
    exact ⟨s, List.mem_cons_self .., o, c, hb, rfl⟩
  silent := by
    refine h.silent.step hhost fun keyword e c hc hcall => ?_
    exact h.marked.not_return hx.recorded.accepted hl hc hcall
  numbered := by
    have hle : s.machine.world.nextOwner ≤ s.step.machine.world.nextOwner :=
      nextOwner_le_step s.machine hhost
    obtain ⟨hs, -⟩ := h.numbered s (List.mem_cons_self ..)
    refine List.forall_mem_cons.mpr ⟨⟨hs.step hhost, Nat.le_refl _⟩, fun t ht => ?_⟩
    obtain ⟨hnumbered, htle⟩ := h.numbered t ht
    exact ⟨hnumbered, htle.trans hle⟩

/-- Between two inputs nothing new is held. -/
lemma rest {inputs' : List Grammar.Input} (h : Known inputs past s) (hi : inputs ⊆ inputs')
    (hholds : ∀ v, s'.machine.Holds v → s.machine.Holds v) (hpending : s'.machine.pending = [])
    (hnext : s'.machine.world.nextOwner = s.machine.world.nextOwner) :
    Known inputs' (s :: past) s' where
  marked := by
    have hmarked := h.marked.mono hi fun c => wasBound_cons (s := s)
    refine ⟨fun v hv => hmarked.values v (hholds v hv), fun c hc => ?_⟩
    unfold activations at hc
    rw [hpending] at hc
    cases hc
  silent := by
    refine ⟨fun v c _ hc => ?_, fun ps c hps => ?_⟩
    · rw [hpending] at hc
      cases hc
    · rw [hpending] at hps
      exact absurd (List.suffix_nil.mp hps) (List.cons_ne_nil _ _)
  numbered := by
    obtain ⟨hs, -⟩ := h.numbered s (List.mem_cons_self ..)
    rw [hnext]
    refine List.forall_mem_cons.mpr ⟨⟨fun v n hv hn => ?_, hnext.le⟩, h.numbered⟩
    rw [hnext]
    exact hs v n (hholds v hv) hn

end Known

lemma Course.known (hhost : (Service.host services).AddsNoCode)
    (h : Course services sink (s :: past) inputs) : Known inputs past s := by
  generalize hss : s :: past = ss at h
  induction h generalizing s past with
  | start =>
    cases hss
    exact .start
  | step h ih =>
    cases hss
    obtain ⟨t, before, ht, hguarded⟩ := h.guarded hhost
    cases ht
    obtain ⟨x, hx, -⟩ := h.bindings hhost
    exact (ih rfl).step (host_of_course h ▸ hhost) hx hguarded.lodging
  | refused _ hs ha ih =>
    cases hss
    have hmachine := (accept_eq_error ha).machine
    refine (ih rfl).rest (List.Subset.refl _) ?_ ?_ ?_
    · rw [hmachine]
      exact fun v hv => hv
    · rw [hmachine]
      exact (isHalted_iff.mp hs).1
    · rw [hmachine]
  | accepted _ hs ha ih =>
    cases hss
    obtain ⟨-, -, hs'⟩ := accept_eq_ok ha
    rw [hs']
    exact (ih rfl).rest (List.subset_cons_self ..) (fun v => holds_of_load) rfl rfl

/-! ### Coming back from a call -/

/-- What a moment comes back to is a later moment. -/
lemma Course.returns {r : Machine} (h : Course services sink (s :: past) inputs)
    (hr : Returns ⟨s.distances, s.host⟩ ps s.machine r) : ∃ t more,
      Course services sink (t :: (more ++ past)) inputs ∧ t.machine = r := by
  obtain ⟨n, rfl⟩ := hr.exists_run
  obtain ⟨more, -, hmore⟩ := h.resume n
  exact ⟨_, more, hmore, rfl⟩

/-- At the end of the call of an initializer is the object to which it is bound, unless the run
fails. -/
lemma Course.yields_call (hhost : (Service.host services).AddsNoCode)
    (h : Course services sink (s :: past) inputs) {b : Machine}
    (hs : s.machine = b.enter c args site) (hinit : c.isInitializer) {f : FrameId}
    (henv : c.env.head? = some f) (hbound : BoundIn past f o) {r : Machine}
    (hlength : ps.length ≤ b.pending.length)
    (hr : Returns ⟨s.distances, s.host⟩ ps s.machine r) :
    ∃ n : Machine, n.control.Yields o ∧ n.pending = b.pending ∧
      Returns ⟨s.distances, s.host⟩ ps n r := by
  by_cases hroom : b.depth < maxDepth
  · have hentered : s.machine = ({ s.machine with pending := [] } : Machine).onto
        (.leaveCall b.env c :: b.pending) := by
      rw [hs]
      unfold enter
      rw [if_neg (Nat.not_le_of_lt hroom)]
      rfl
    rw [hentered] at hr
    obtain ⟨q, hq, hrest⟩ := hr.split (Nat.lt_succ_of_le hlength)
    rw [← hentered] at hq
    obtain ⟨t, more, hcourse, rfl⟩ := h.returns hq
    -- there the frame of the binding is as it was, and no `break` passes the call
    obtain ⟨x, -, hb⟩ := hcourse.bindings hhost
    obtain ⟨v, hv, d, hd, hf⟩ := hbound
    obtain ⟨-, hreceives⟩ := hb.receives f o ⟨v, List.mem_append_right _ hv, d, hd, hf⟩
    obtain ⟨t', before, heq, hguarded⟩ := hcourse.guarded hhost
    cases heq
    have hloop : t.machine.control ≠ .exit .leaveLoop := by
      intro hexit
      have hlodged := hguarded.lodging.control
      rw [hexit, hq.pending] at hlodged
      obtain ⟨qs, e, body, rest, heq, hqs⟩ := hlodged
      cases qs with
      | nil => cases heq
      | cons q qs =>
        obtain ⟨rfl, -⟩ := List.cons.inj heq
        exact (hqs _ (List.mem_cons_self ..)).2 rfl
    obtain ⟨hyields, hpending⟩ := yields_leaveCall (s := ⟨s.distances, s.host⟩) hq.pending
      hq.isOutcome hloop hinit henv hreceives
    exact ⟨_, hyields, hpending, hrest⟩
  · refine ⟨s.machine, .inr ⟨.runtime site.line .stackOverflow, ?_⟩, ?_, hr⟩
    · obtain ⟨hover, -⟩ := @enter_of_full b c args site (Nat.le_of_not_lt hroom)
      rw [hs]
      exact hover
    · rw [hs]
      unfold enter
      rw [if_pos (Nat.le_of_not_lt hroom)]
      rfl

/-- The call of an initializer gives the object to which it is bound, unless the run fails. -/
lemma Course.yields (hhost : (Service.host services).AddsNoCode)
    (h : Course services sink (s :: past) inputs) (ha : s.machine.Attempts c args site)
    (hinit : c.isInitializer) {t : Session} (ht : t ∈ s :: past) {d : Closure}
    (hd : t.machine.Binds o d) (hc : c = d.within t.machine.world.frames.next) {p : Pending}
    {r : Machine} (hps : s.machine.pending = p :: ps)
    (hr : Returns ⟨s.distances, s.host⟩ ps s.step.machine r) : r.control.Yields o := by
  obtain ⟨b, p', ps', hps', -, hunder, hstep⟩ := ha.step ⟨s.distances, s.host⟩
  cases hps.symm.trans hps'
  have hbound : BoundIn (s :: past) t.machine.world.frames.next o := ⟨t, ht, d, hd, rfl⟩
  have henv : c.env.head? = some t.machine.world.frames.next := by rw [hc]; rfl
  have hlength : ps.length ≤ b.pending.length := by
    generalize b.pending = qs at hunder
    cases hunder with
    | same => exact Nat.le_refl _
    | object => exact Nat.le_succ _
  obtain ⟨n, hyields, hpending, hn⟩ :=
    h.step.yields_call hhost hstep hinit henv hbound hlength hr
  generalize b.pending = qs at hunder hpending
  cases hunder with
  | same => rwa [hn.eq hpending hyields.isOutcome]
  | @object k e hobject hc' =>
    -- the initializer of a new object is bound to that object
    have hnext : t.machine.world.frames.next = s.machine.world.frames.next := by
      have henvs := congrArg Closure.env (hc.symm.trans hc')
      exact (List.cons.inj henvs).1
    obtain ⟨x, -, hb⟩ := h.step.bindings hhost
    obtain ⟨-, hreceives⟩ := hb.receives _ o hbound
    rw [hnext] at hreceives
    obtain ⟨-, hreceives'⟩ := hb.receives _ _ ⟨s, List.mem_cons_self .., e, hobject, rfl⟩
    rw [hreceives.eq hreceives']
    exact yields_construct hpending hyields hn

/-! ### Objects and initializers -/

/-- What is known of objects and initializers at a moment `s` after some others. -/
structure Initializes (past : List Session) (s : Session) : Prop where
  /-- The call of a class, with as many arguments as its initializer takes, gives a new object of the
  class, unless the run fails. -/
  object : ∀ id k args site p ps r, s.machine.calls? = some (.classValue id k, args, site) →
    args.length = k.arity → s.machine.pending = p :: ps →
    Returns ⟨s.distances, s.host⟩ ps s.step.machine r →
    r.control.Yields (.object s.machine.world.nextOwner k)
  /-- It differs from all values that were held before. -/
  new : ∀ t ∈ s :: past, ∀ v k, t.machine.Holds v →
    v.equals (.object s.machine.world.nextOwner k) = false
  /-- Where `init` of an object is read, the initializer of its class is bound to the object and
  handed over. -/
  read : ∀ id k name ps c, s.machine.control = .value (.object id k) →
    s.machine.pending = .property name :: ps → name.lexeme = initName →
    s.machine.world.field? id initName = none → k.initializer? = some c →
    c.isInitializer ∧ s.machine.Binds (.object id k) c ∧
      s.step.machine.HandsOver (c.within s.machine.world.frames.next)
  /-- The call of an initializer that was bound, whether at once or later on, gives the object to
  which it was bound, unless the run fails. -/
  call : ∀ t ∈ s :: past, ∀ o c, t.machine.Binds o c → c.isInitializer → ∀ args site p ps r,
    s.machine.Attempts (c.within t.machine.world.frames.next) args site →
    s.machine.pending = p :: ps → Returns ⟨s.distances, s.host⟩ ps s.step.machine r →
    r.control.Yields o
  /-- No other initializers are called. -/
  bound : ∀ c args site, s.machine.Attempts c args site → c.isInitializer → WasBound (s :: past) c
  /-- Nothing but `nil` is on its way out of the call of an initializer. -/
  silent : ∀ v c, s.machine.control = .exit (.leaveCall v) →
    innermost? s.machine.pending = some c → c.isInitializer → v = .nil

/-- An object that is new has a number of its own. -/
lemma Known.new (h : Known inputs past s) {t : Session} (ht : t ∈ s :: past) {v : Value}
    (hv : t.machine.Holds v) (k : ClassInfo) :
    v.equals (.object s.machine.world.nextOwner k) = false := by
  obtain ⟨hnumbered, hle⟩ := h.numbered t ht
  cases v with
  | object id k' =>
    have hlt : id < t.machine.world.nextOwner := hnumbered _ id hv rfl
    exact beq_false_of_ne (Nat.ne_of_lt (lt_of_lt_of_le hlt hle))
  | _ => rfl

/-- At every moment of a session, the call of a class gives a new object of the class, the call of an
initializer that is bound to an object gives that object, and no initializer gives back anything
itself; unless the run fails. -/
theorem construction_yields_object (hhost : (Service.host services).AddsNoCode)
    (h : Course services sink (s :: past) inputs) : Initializes past s := by
  have hknown := h.known hhost
  have hcall : ∀ t ∈ s :: past, ∀ o c, t.machine.Binds o c → c.isInitializer →
      ∀ args site p ps r, s.machine.Attempts (c.within t.machine.world.frames.next) args site →
      s.machine.pending = p :: ps → Returns ⟨s.distances, s.host⟩ ps s.step.machine r →
      r.control.Yields o := by
    intro t ht o c hb hinit args site p ps r ha hps hr
    exact h.yields hhost ha hinit ht hb rfl hps hr
  have hinit : ∀ {id k c}, (s.machine.Holds (.classValue id k) ∨ s.machine.Holds (.object id k)) →
      k.initializer? = some c → c.isInitializer := by
    intro id k c hheld hc
    have hclass : ClassInfo.Rightful inputs k :=
      hheld.elim (hknown.marked.values _) (hknown.marked.values _)
    exact (hclass.methods initName c hc).1.mpr rfl
  refine ⟨?_, fun t ht v k hv => hknown.new ht hv k, ?_, hcall, ?_, hknown.silent.leaving⟩
  · intro id k args site p ps r hcalls hlength hps hr
    cases hk : k.initializer? with
    | none =>
      obtain ⟨p', ps', hps', -, hstep⟩ := step_calls (s := ⟨s.distances, s.host⟩) hcalls
      cases hps.symm.trans hps'
      have harity : (Value.classValue id k).arity? = some args.length := congrArg some hlength.symm
      rw [call_eq_invoke harity, invoke, construct, hk] at hstep
      have hcontrol : s.step.machine.control = .value (.object s.machine.world.nextOwner k) := by
        change (s.machine.step ⟨s.distances, s.host⟩).control = _
        rw [hstep]
        rfl
      have hpending : s.step.machine.pending = ps := by
        change (s.machine.step ⟨s.distances, s.host⟩).pending = _
        rw [hstep]
        rfl
      rw [hr.eq hpending (by rw [hcontrol]; rfl)]
      exact .inl hcontrol
    | some c =>
      have hb : s.machine.Binds (.object s.machine.world.nextOwner k) c :=
        .initializer (constructs_of_calls hcalls hlength) hk
      have hmark : c.isInitializer := hinit (.inl (holds_of_calls hcalls)) hk
      exact hcall s (List.mem_cons_self ..) _ c hb hmark args site p ps r
        (.initializer hcalls hlength hk) hps hr
  · intro id k name ps c hc hps hname hfield hk
    have hb : s.machine.Binds (.object id k) c := by
      refine .method hc hps ?_ ?_
      · rwa [hname]
      · rwa [hname]
    exact ⟨hinit (.inr (.inHand hc)) hk, hb, hb.handsOver⟩
  · intro c args site ha hmark
    have hmarked := hknown.marked.mono (List.Subset.refl _) fun c => wasBound_cons (s := s)
    refine (hmarked.attempts (fun o c hb => ?_) ha hmark).2
    exact ⟨s, List.mem_cons_self .., o, c, hb, rfl⟩

/-- An initializer makes another object of its class and returns early. -/
theorem construction_yields_object_of_class :
    let s := ((start [.clock 0] .unlimited).accept .program
      ("class A \x7b init(again) \x7b if (again) \x7b A(false); return; \x7d " ++
        "this.again = again; \x7d \x7d A(true);")).1.resume 9
    ∃ past input id k args site p ps r, Course [.clock 0] .unlimited (s :: past) [input] ∧
      s.machine.calls? = some (.classValue id k, args, site) ∧ args.length = k.arity ∧
      s.machine.pending = p :: ps ∧ Returns ⟨s.distances, s.host⟩ ps s.step.machine r ∧
      r.control = .value (.object s.machine.world.nextOwner k) ∧ Initializes past s := by
  intro s
  let d : Setting := ⟨s.distances, s.host⟩
  let m : Machine := { s.machine with pending := s.machine.pending.take 1 }
  have hconstructs : s.machine.constructs?.isSome := by decide +kernel
  have hrun : ((m.step d).run d 38).isHalted := by decide +kernel
  have hvalue : ((m.step d).run d 38).control.failure?.isNone := by decide +kernel
  obtain ⟨past, input, -, hcourse⟩ := Course.first [.clock 0] .unlimited .program
    ("class A \x7b init(again) \x7b if (again) \x7b A(false); return; \x7d " ++
      "this.again = again; \x7d \x7d A(true);") (by decide +kernel) 9
  have hinitializes : Initializes past s :=
    construction_yields_object (addsNoCode_clock 0) hcourse
  obtain ⟨k, hk⟩ := Option.isSome_iff_exists.mp hconstructs
  obtain ⟨id, args, site, p, ps, hcalls, hlength, hps⟩ := calls_of_constructs hk
  -- the call does not look at what waits below
  have hm : m.pending = [p] := by
    change s.machine.pending.take 1 = [p]
    rw [hps]
    rfl
  have honto : s.machine = m.onto ps := by
    unfold onto
    rw [hm]
    exact congrArg (fun qs => { s.machine with pending := qs }) hps
  have hhalted : ¬m.isHalted := fun h =>
    List.cons_ne_nil _ _ (hm.symm.trans (isHalted_iff.mp h).1)
  have hreturns : Returns d ps s.step.machine (((m.step d).run d 38).onto ps) := by
    have hstep : s.step.machine = (m.step d).onto ps := by
      change s.machine.step d = _
      rw [honto, step_onto hhalted]
    rw [hstep]
    exact (returns_run hrun).above ps
  refine ⟨past, input, id, k, args, site, p, ps, _, hcourse, hcalls, hlength, hps, hreturns, ?_,
    hinitializes⟩
  have hyields := hinitializes.object id k args site p ps _ hcalls hlength hps hreturns
  refine hyields.resolve_right ?_
  rintro ⟨f, hf⟩
  have hfailure : ((m.step d).run d 38).control.failure? = some f :=
    Control.failure?_eq_some.mpr hf
  rw [hfailure] at hvalue
  cases hvalue

end Session

end Lox
