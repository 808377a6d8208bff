import Lox.Proofs.Machine.Binding
import Lox.Proofs.Scope.Receiver
import Lox.Proofs.Session.Batch
import Lox.Proofs.Session.Definedness

/-!
What `this` yields is settled where a method is bound.

The frame of a binding holds the object and nothing else, and no later step writes into it. No
other frame has a variable `this`, and the survey leads every `this` to the innermost scope around
methods. So `this` yields the object of the innermost binding around the code.
-/

namespace Lox

open Scope

namespace Machine

variable {x : Scene} {m : Machine} {w : World} {S : Shape} {env : Env} {n : Node} {f : FrameId}

/-- Where code runs in a scope, the current frame has no variable `this`, unless it is that of the
globals. -/
lemma Placed.not_binds_this (h : Placed x (f :: env) S n)
    (hnamed : ∀ input ∈ x.inputs, (rootOf input).Named) (hw : WorldOk x w) (hn : n.Runs)
    (hf : f ≠ 0) : ¬w.frames.binds "this" f := by
  obtain ⟨xs, ctx, v, hv, hm, -⟩ := h
  cases hm with
  | globals => exact absurd rfl hf
  | @cons _ _ y ys hlabel _ =>
    intro hbinds
    have hthis := hv.isThis_of_declares x.accepted hnamed y (List.mem_cons_self ..)
      (hw.declared f y _ hlabel hbinds)
    exact hv.not_isThis hn y rfl hthis

/-- What is placed in an environment is not called `this`. -/
lemma Placed.named (h : Placed x env S n) (hnamed : ∀ input ∈ x.inputs, (rootOf input).Named) :
    n.Named := by
  obtain ⟨xs, ctx, v, hv, -, -⟩ := h
  exact hv.named hnamed

/-- A variable is declared by a statement that is placed in the current environment. -/
lemma Invariant.declares (h : Invariant x m) {name : Token} (hd : m.Declares name) :
    ∃ S d, Placed x m.env S (.stmt d) ∧ d.declared? = some name := by
  obtain ⟨control, pending, env, depth, w⟩ := m
  rcases hd with ⟨d, rfl, hd⟩ | ⟨ps, rfl⟩
  · cases h.runs with
    | exec hp => exact ⟨_, d, hp, hd⟩
  · have hwaits : ∀ {q S}, Waits x q env S (.declare name :: ps) →
        ∃ S d, Placed x env S (.stmt d) ∧ d.declared? = some name := by
      intro q S hw
      cases hw with
      | operand hp => exact hp.elim
      | head hp => exact hp.elim
      | initial hp => exact ⟨_, _, hp, rfl⟩
      | ofDeclaration hw => cases hw
    cases h.runs with
    | eval _ _ hw => exact hwaits hw
    | exec _ _ hw => exact hwaits hw
    | execAll _ _ hw => exact hwaits hw
    | value _ _ hw => exact hwaits hw
    | exit _ hw => exact hwaits hw

/-- A variable is assigned to by an expression that is placed in the current environment. -/
lemma Invariant.assigns (h : Invariant x m) {id : NodeId} {name : Token} {ps : List Pending}
    (hp : m.pending = .assign id name :: ps) :
    ∃ S e, Placed x m.env S (.expr (.assign id name e)) := by
  obtain ⟨control, pending, env, depth, w⟩ := m
  obtain rfl : pending = .assign id name :: ps := hp
  have hwaits : ∀ {q S}, Waits x q env S (.assign id name :: ps) →
      ∃ S e, Placed x env S (.expr (.assign id name e)) := by
    intro q S hw
    cases hw with
    | operand hp =>
      obtain ⟨e, he⟩ := hp
      exact ⟨_, e, he⟩
    | head hp => exact hp.elim
    | ofDeclaration hw => cases hw
  cases h.runs with
  | eval _ _ hw => exact hwaits hw
  | exec _ _ hw => exact hwaits hw
  | execAll _ _ hw => exact hwaits hw
  | value _ _ hw => exact hwaits hw
  | exit _ hw => exact hwaits hw

end Machine

namespace Session

open Machine

variable {services : List Service} {sink : Sink} {s s' : Session} {past : List Session}
  {inputs : List Grammar.Input} {f : FrameId} {o : Value} {id : NodeId} {keyword : Token}

/-- At one of the moments a method was bound to an object, in this frame. -/
def BoundIn (past : List Session) (f : FrameId) (o : Value) : Prop :=
  ∃ t ∈ past, ∃ c, t.machine.Binds o c ∧ t.machine.world.frames.next = f

/-- An environment of the code of a method that is bound in a frame, or of a function that is
declared in that code: no frame on the way to that of the binding is one of another binding. -/
def Surrounds (past : List Session) (f : FrameId) (env : Env) : Prop :=
  ∃ inner outer, env = inner ++ f :: outer ∧ ∀ g ∈ inner, ∀ o, ¬BoundIn past g o

/-- What is known of bindings after some moments. -/
structure Bindings (past : List Session) (m : Machine) : Prop where
  receives : ∀ f o, BoundIn past f o → f ≠ 0 ∧ m.Receives f o
  bound : ∀ f, f ≠ 0 → m.world.frames.binds "this" f → ∃ o, BoundIn past f o

lemma boundIn_cons : BoundIn (s :: past) f o ↔
    (∃ c, s.machine.Binds o c ∧ s.machine.world.frames.next = f) ∨ BoundIn past f o := by
  unfold BoundIn
  simp only [List.mem_cons, exists_eq_or_imp]

/-- Nothing is bound by a machine that has come to its end. -/
lemma not_binds_of_isHalted {m : Machine} {c : Closure} (hs : m.isHalted) : ¬m.Binds o c := by
  intro h
  have hpending := (isHalted_iff.mp hs).1
  cases h with
  | method _ hp => exact nomatch hpending.symm.trans hp
  | static _ hp => exact nomatch hpending.symm.trans hp
  | initializer hk =>
    unfold constructs? at hk
    rw [hpending] at hk
    cases hk

namespace Bindings

lemma start : Bindings [] (Session.start services sink).machine where
  receives := by
    rintro f o ⟨t, ht, -⟩
    cases ht
  bound f hf hbinds := by
    have hlt := Frames.lt_next_of_binds hbinds
    exact absurd (Nat.lt_one_iff.mp hlt) hf

/-- Between two inputs nothing changes. -/
lemma rest {m : Machine} (h : Bindings past s.machine) (hs : s.machine.isHalted)
    (hm : m.world.frames = s.machine.world.frames) : Bindings (s :: past) m := by
  have hsame : ∀ f o, BoundIn (s :: past) f o ↔ BoundIn past f o := fun f o =>
    boundIn_cons.trans (or_iff_right fun ⟨c, hc, _⟩ => not_binds_of_isHalted hs hc)
  constructor
  · intro f o hbound
    unfold Receives
    rw [hm]
    exact h.receives f o ((hsame f o).mp hbound)
  · intro f hf hbinds
    rw [hm] at hbinds
    obtain ⟨o, ho⟩ := h.bound f hf hbinds
    exact ⟨o, (hsame f o).mpr ho⟩

end Bindings

namespace Bindings

variable {x y : Scene}

/-- A step creates a frame with `this` only for a binding, and writes into none. -/
lemma step (hb : Bindings past s.machine) (hx : Fits x inputs s) (hy : Fits y inputs s.step)
    (hnamed : ∀ input ∈ inputs, (rootOf input).Named) : Bindings (s :: past) s.step.machine := by
  have hxnamed : ∀ input ∈ x.inputs, (rootOf input).Named := hx.inputs ▸ hnamed
  have hynamed : ∀ input ∈ y.inputs, (rootOf input).Named := hy.inputs ▸ hnamed
  have hnext : s.machine.world.frames.next ≠ 0 := by
    rw [← hx.invariant.world.length]
    exact Nat.ne_zero_of_lt hx.invariant.head
  have hdeclared : ∀ {name}, s.machine.Declares name → name.lexeme ≠ "this" := by
    intro name hd
    obtain ⟨S, d, hp, hname⟩ := hx.invariant.declares hd
    exact Stmt.Named.declared (hp.named hxnamed) hname
  have hassigned : ∀ {id name ps}, s.machine.pending = .assign id name :: ps →
      name.lexeme ≠ "this" := by
    intro id name ps hp
    obtain ⟨S, e, hp⟩ := hx.invariant.assigns hp
    obtain ⟨-, hname⟩ := hp.named hxnamed
    exact hname name rfl
  -- a body that is entered runs in a frame that has no variable `this`
  have hopened : ∀ {body f}, s.step.machine.control = .execAll body →
      s.step.machine.env.head? = some f → f ≠ 0 → ¬s.step.machine.world.frames.binds "this" f := by
    intro body f hc henv hf
    obtain ⟨S, hp⟩ := hy.invariant.node (n := .stmts body) (by rw [hc]; rfl)
    obtain ⟨env, henv⟩ := List.head?_eq_some_iff.mp henv
    rw [henv] at hp
    exact hp.not_binds_this hynamed hy.invariant.world trivial hf
  have hstep := step_reframes ⟨s.distances, s.host⟩ s.machine
  constructor
  · intro f o hbound
    rcases boundIn_cons.mp hbound with ⟨c, hc, rfl⟩ | hbound
    · exact ⟨hnext, hc.receives⟩
    obtain ⟨hf, hold⟩ := hb.receives f o hbound
    refine ⟨hf, ?_⟩
    cases hstep with
    | keeps h => exact hold.keep h
    | declares hd hhead h =>
      obtain ⟨S, d, hp, -⟩ := hx.invariant.declares hd
      obtain ⟨env, henv⟩ := List.head?_eq_some_iff.mp hhead
      refine hold.write h ?_
      rintro rfl
      rw [henv] at hp
      exact hp.not_binds_this hxnamed hx.invariant.world trivial hf hold.binds
    | assigns hp hbinds h =>
      refine hold.write h ?_
      rintro rfl
      exact hassigned hp (hold.eq_this hbinds)
    | opens _ _ h => exact hold.push h
    | binds _ h => exact hold.push h
    | bindsAndOpens _ _ _ h =>
      exact Receives.push (m := s.machine.bind _) (hold.push rfl) h
  · intro f hf hbinds
    have hold : s.machine.world.frames.binds "this" f → ∃ o, BoundIn (s :: past) f o := by
      intro hbinds
      obtain ⟨o, ho⟩ := hb.bound f hf hbinds
      exact ⟨o, boundIn_cons.mpr (.inr ho)⟩
    have hnew : ∀ {o c}, s.machine.Binds o c → f = s.machine.world.frames.next →
        ∃ o, BoundIn (s :: past) f o :=
      fun {o c} hc hf => ⟨o, boundIn_cons.mpr (.inl ⟨c, hc, hf.symm⟩)⟩
    cases hstep with
    | keeps h => exact hold (h ▸ hbinds)
    | declares hd _ h =>
      rcases Frames.binds_write.mp (h ▸ hbinds) with ⟨-, hname, -⟩ | hbinds
      · exact absurd hname (hdeclared hd)
      · exact hold hbinds
    | assigns hp _ h =>
      rcases Frames.binds_write.mp (h ▸ hbinds) with ⟨-, hname, -⟩ | hbinds
      · exact absurd hname (hassigned hp)
      · exact hold hbinds
    | opens hc henv h =>
      rcases Frames.binds_push.mp (h ▸ hbinds) with ⟨rfl, -⟩ | hbinds'
      · exact absurd hbinds (hopened hc henv hf)
      · exact hold hbinds'
    | binds hc h =>
      rcases Frames.binds_push.mp (h ▸ hbinds) with ⟨rfl, -⟩ | hbinds
      · exact hnew hc rfl
      · exact hold hbinds
    | bindsAndOpens hb' hc henv h =>
      rcases Frames.binds_push.mp (h ▸ hbinds) with ⟨rfl, -⟩ | hbinds'
      · rw [Frames.next_push] at hbinds
        exact absurd hbinds (hopened hc henv (Nat.succ_ne_zero _))
      · rcases Frames.binds_push.mp hbinds' with ⟨rfl, -⟩ | hbinds'
        · exact hnew hb' rfl
        · exact hold hbinds'

end Bindings

/-- Nothing that a session accepts is called `this`. -/
lemma Course.named (h : Course services sink past inputs) :
    ∀ input ∈ inputs, (rootOf input).Named := by
  induction h with
  | start => exact List.forall_mem_nil _
  | step _ ih => exact ih
  | refused _ _ _ ih => exact ih
  | accepted _ _ ha ih =>
    have hread := congrArg (·.result) (read_of_accept ha)
    exact List.forall_mem_cons.mpr ⟨named_read hread, ih⟩

/-- What is known of bindings holds all along. -/
lemma Course.bindings (hhost : (Service.host services).AddsNoCode)
    (h : Course services sink (s :: past) inputs) :
    ∃ x, Fits x inputs s ∧ Bindings past s.machine := by
  generalize hss : s :: past = ss at h
  induction h generalizing s past with
  | start =>
    cases hss
    exact ⟨_, fits_start, .start⟩
  | step h ih =>
    cases hss
    obtain ⟨x, hx, hb⟩ := ih rfl
    obtain ⟨y, hy, -⟩ := hx.step (host_of_course h ▸ hhost)
    exact ⟨y, hy, hb.step hx hy h.named⟩
  | refused _ hs ha ih =>
    cases hss
    obtain ⟨x, hx, hb⟩ := ih rfl
    have hr := accept_eq_error ha
    exact ⟨x, hx.refused hr, hb.rest hs (congrArg (·.world.frames) hr.machine)⟩
  | accepted _ hs ha ih =>
    cases hss
    obtain ⟨x, hx, hb⟩ := ih rfl
    obtain ⟨y, hy, -⟩ := hx.accepted hs ha
    obtain ⟨-, -, hs'⟩ := accept_eq_ok ha
    refine ⟨y, hy, hb.rest hs ?_⟩
    rw [hs']
    rfl

/-! ### Reading `this` -/

/-- Around an environment there is at most one innermost binding. -/
lemma Surrounds.eq {env : Env} {g : FrameId} {o' : Value} (hf : Surrounds past f env)
    (ho : BoundIn past f o) (hg : Surrounds past g env) (ho' : BoundIn past g o') : f = g := by
  obtain ⟨inner, outer, rfl, hinner⟩ := hf
  obtain ⟨inner', outer', henv, hinner'⟩ := hg
  rcases List.append_eq_append_iff.mp henv with ⟨ys, rfl, hys⟩ | ⟨ys, rfl, hys⟩
  · cases ys with
    | nil => exact (List.cons.inj hys).1
    | cons y ys =>
      obtain ⟨rfl, -⟩ := List.cons.inj hys
      exact absurd ho (hinner' f (by simp) o)
  · cases ys with
    | nil => exact (List.cons.inj hys).1.symm
    | cons y ys =>
      obtain ⟨rfl, -⟩ := List.cons.inj hys
      exact absurd ho' (hinner g (by simp) o')

end Session

end Lox
