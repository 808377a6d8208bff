import Mathlib.Data.Nat.Notation
import Mathlib.Logic.Function.Basic
import Lox.Proofs.Machine.Returning
import Lox.Proofs.Scope.Orderly

/-!
When a step binds a method, and what it does to the frames.

A method is bound where it is read as a property of an object or a class, and where an object is
made that has an initializer. Apart from the frame of a binding a step creates none but that of a
block or a call that it enters, and it writes only the variable of a declaration or of an
assignment.
-/

namespace Lox.Machine

variable {s : Setting} {m n : Machine}

/-- The class of which the next step makes an object. -/
def constructs? (m : Machine) : Option ClassInfo :=
  match m.pending, m.control with
  | .callee _ [] :: _, .value (.classValue _ k) => if k.arity = 0 then some k else none
  | .argument (.classValue _ k) _ found [] :: _, .value _ =>
    if found.length + 1 = k.arity then some k else none
  | _, _ => none

/-- The next step binds a method to an object, in the frame that is next. -/
inductive Binds (m : Machine) : Value → Closure → Prop
  /-- A method or getter of an object, where the object has no such field, -/
  | method {id k name ps c} : m.control = .value (.object id k) → m.pending = .property name :: ps →
      m.world.field? id name.lexeme = none → k.methods.get? name.lexeme = some c →
      Binds m (.object id k) c
  /-- or one of a class itself, -/
  | static {id k name ps c} : m.control = .value (.classValue id k) →
      m.pending = .property name :: ps → m.world.field? id name.lexeme = none →
      k.statics.get? name.lexeme = some c → Binds m (.classValue id k) c
  /-- or the initializer of an object that is made. -/
  | initializer {k c} : m.constructs? = some k → k.initializer? = some c →
      Binds m (.object m.world.nextOwner k) c

/-- The next step gives a variable of this name its value where it is declared. -/
def Declares (m : Machine) (name : Token) : Prop :=
  (∃ d, m.control = .exec d ∧ d.declared? = some name) ∨ ∃ ps, m.pending = .declare name :: ps

/-- What a step may do to the frames. -/
inductive Reframes (m n : Machine) : Prop
  | keeps : n.world.frames = m.world.frames → Reframes m n
  | declares {f name v} : m.Declares name → m.env.head? = some f →
      n.world.frames = m.world.frames.write f name.lexeme v → Reframes m n
  | assigns {f id name ps v} : m.pending = .assign id name :: ps →
      m.world.frames.binds name.lexeme f →
      n.world.frames = m.world.frames.write f name.lexeme v → Reframes m n
  | opens {t body} : n.control = .execAll body → n.env.head? = some m.world.frames.next →
      n.world.frames = m.world.frames.push t → Reframes m n
  | binds {o c} : Binds m o c → n.world.frames = m.world.frames.push [("this", o)] → Reframes m n
  | bindsAndOpens {o c t body} : Binds m o c → n.control = .execAll body →
      n.env.head? = some (m.world.frames.next + 1) →
      n.world.frames = (m.world.frames.push [("this", o)]).push t → Reframes m n

/-! ### Helpers -/

section
variable {c : Closure} {args : List Value} {site name : Token} {v : Value}

lemma frames_giveResult {r : Except Failure Value} :
    (m.giveResult r).world.frames = m.world.frames := by
  cases r <;> rfl

lemma frames_giveFound {found : Option Value} :
    (m.giveFound name found).world.frames = m.world.frames := by
  cases found <;> rfl

lemma frames_leave {env : Env} : (m.leave env c v).world.frames = m.world.frames := by
  unfold leave
  dsimp only
  split
  · split <;> rfl
  · rfl

lemma frames_printLine : (m.printLine v).world.frames = m.world.frames := by
  unfold printLine
  dsimp only
  split <;> rfl

/-- A call opens a frame, unless it is one too many. -/
lemma frames_enter (m : Machine) (c : Closure) (args : List Value) (site : Token) :
    (m.enter c args site).world.frames = m.world.frames ∨
    ∃ t body, (m.enter c args site).control = .execAll body ∧
      (m.enter c args site).env.head? = some m.world.frames.next ∧
      (m.enter c args site).world.frames = m.world.frames.push t := by
  unfold enter
  split
  · exact .inl rfl
  · exact .inr ⟨_, _, rfl, rfl, rfl⟩

/-- A method that is bound may be entered at once. -/
lemma reframes_bind_enter {b : Machine} {o : Value} {d : Closure} (hb : Binds m o d)
    (hframes : b.world.frames = m.world.frames.push [("this", o)]) :
    Reframes m (b.enter c args site) := by
  have hnext : b.world.frames.next = m.world.frames.next + 1 := by
    rw [hframes, Frames.next_push]
  obtain h | ⟨t, body, hcontrol, henv, h⟩ := frames_enter b c args site
  · exact .binds hb (h.trans hframes)
  · rw [hnext] at henv
    rw [hframes] at h
    exact .bindsAndOpens hb hcontrol henv h

/-- An object is made, and its initializer is bound and entered if there is one. -/
lemma reframes_construct {ps : List Pending} {k : ClassInfo} (hk : m.constructs? = some k) :
    Reframes m (({ m with pending := ps } : Machine).construct k args site) := by
  unfold construct
  dsimp only
  split
  · exact .keeps rfl
  · rename_i f hf
    exact reframes_bind_enter (.initializer hk hf) rfl

lemma reframes_call {ps : List Pending} {callee : Value}
    (hk : ∀ id k, callee = .classValue id k → args.length = k.arity → m.constructs? = some k) :
    Reframes m (({ m with pending := ps } : Machine).call s callee args site) := by
  unfold call
  split
  · exact .keeps rfl
  rename_i arity harity
  split
  · rename_i hlength
    unfold invoke
    split
    · split <;> exact .keeps rfl
    · obtain h | ⟨t, body, hcontrol, henv, h⟩ := frames_enter { m with pending := ps } _ args site
      · exact .keeps h
      · exact .opens hcontrol henv h
    · rename_i id k
      exact reframes_construct (hk id k rfl (hlength.trans (Option.some_inj.mp harity).symm))
    · exact .keeps rfl
  · exact .keeps rfl

lemma reframes_nextArgument {ps : List Pending} {callee : Value} {rest : List Expr}
    (hk : rest = [] → ∀ id k, callee = .classValue id k → args.length = k.arity →
      m.constructs? = some k) :
    Reframes m (({ m with pending := ps } : Machine).nextArgument s callee site args rest) := by
  cases rest with
  | nil =>
    refine reframes_call fun id k hcallee hlength => hk rfl id k hcallee ?_
    rwa [List.length_reverse] at hlength
  | cons e rest => exact .keeps rfl

/-- A property is a field, or else a method that is bound. -/
lemma reframes_readMember {ps : List Pending} {owner : ℕ} {object : Value}
    {method? : Option Closure} (hb : ∀ c, m.world.field? owner name.lexeme = none →
      method? = some c → Binds m object c) :
    Reframes m (({ m with pending := ps } : Machine).readMember owner object method? name) := by
  unfold readMember
  dsimp only
  split
  · exact .keeps rfl
  · rename_i hfield
    have hbinds := hb _ hfield rfl
    unfold giveMethod
    dsimp only
    split
    · exact reframes_bind_enter hbinds rfl
    · exact .binds hbinds rfl
  · exact .keeps rfl

lemma reframes_readProperty {ps : List Pending} (hc : m.control = .value v)
    (hp : m.pending = .property name :: ps) :
    Reframes m (({ m with pending := ps } : Machine).readProperty v name) := by
  cases v with
  | object id k => exact reframes_readMember fun c hfield hm => .method hc hp hfield hm
  | classValue id k => exact reframes_readMember fun c hfield hm => .static hc hp hfield hm
  | _ => exact .keeps rfl

lemma reframes_define (ps : List Pending) (w : World) (hd : m.Declares name)
    (hw : w.frames = m.world.frames) :
    Reframes m (({ m with pending := ps, world := w } : Machine).define name v) := by
  obtain ⟨control, pending, env, depth, world⟩ := m
  cases env with
  | nil => exact .keeps hw
  | cons f rest =>
    refine .declares (f := f) (v := v) hd rfl ?_
    rw [← hw]
    rfl

lemma reframes_writeVariable {ps : List Pending} {id : NodeId}
    (hp : m.pending = .assign id name :: ps) :
    Reframes m (({ m with pending := ps } : Machine).writeVariable s id name v) := by
  have hwrite : ∀ holder : Option FrameId, (∀ f ∈ holder, m.world.frames.binds name.lexeme f) →
      Reframes m (({ m with pending := ps } : Machine).writeIn holder name v) := by
    intro holder hholder
    cases holder with
    | none => exact .keeps rfl
    | some f => exact .assigns hp (hholder f rfl) rfl
  refine hwrite _ fun f hf => ?_
  split at hf
  · exact (Option.filter_eq_some_iff.mp hf).2
  · exact List.find?_some hf

end

/-! ### The step -/

lemma reframes_evalStep {e : Expr} : Reframes m (m.evalStep s e) := by
  cases e <;> first | exact .keeps rfl | exact .keeps frames_giveFound

lemma reframes_execStep {d : Stmt} (hc : m.control = .exec d) : Reframes m (m.execStep d) := by
  cases d with
  | declare name initial =>
    cases initial with
    | none => exact reframes_define m.pending m.world (.inl ⟨_, hc, rfl⟩) rfl
    | some e => exact .keeps rfl
  | block body => exact .opens rfl rfl rfl
  | function d =>
    exact reframes_define m.pending m.world.addFunction (.inl ⟨_, hc, rfl⟩) rfl
  | classDecl name methods statics =>
    exact reframes_define m.pending m.world.addOwner (.inl ⟨_, hc, rfl⟩) rfl
  | returnFrom keyword value => cases value <;> exact .keeps rfl
  | _ => exact .keeps rfl

lemma reframes_receive {p : Pending} {ps : List Pending} {v : Value} (hc : m.control = .value v)
    (hp : m.pending = p :: ps) :
    Reframes m (({ m with pending := ps } : Machine).receive s p v) := by
  cases p with
  | unary op => exact .keeps frames_giveResult
  | binaryRight l op => exact .keeps frames_giveResult
  | logical op r =>
    unfold receive
    dsimp only
    split <;> exact .keeps rfl
  | assign id name => exact reframes_writeVariable hp
  | callee paren arguments =>
    refine reframes_nextArgument ?_
    rintro rfl id k rfl hlength
    unfold constructs?
    rw [hc, hp]
    exact if_pos hlength.symm
  | argument callee paren found rest =>
    refine reframes_nextArgument ?_
    rintro rfl id k rfl hlength
    unfold constructs?
    rw [hc, hp]
    exact if_pos hlength
  | property name => exact reframes_readProperty hc hp
  | target name value =>
    refine .keeps ?_
    unfold receive takeTarget
    dsimp only
    split <;> rfl
  | print => exact .keeps frames_printLine
  | declare name => exact reframes_define ps m.world (.inr ⟨ps, hp⟩) rfl
  | branch t e =>
    unfold receive
    dsimp only
    split
    · exact .keeps rfl
    · cases e <;> exact .keeps rfl
  | loopTest c body =>
    unfold receive
    dsimp only
    split <;> exact .keeps rfl
  | leaveCall env c => exact .keeps frames_leave
  | _ => exact .keeps rfl

lemma frames_unwind {p : Pending} {x : Exit} :
    (m.unwind p x).world.frames = m.world.frames := by
  cases p with
  | loopBody c body => cases x <;> rfl
  | leaveCall env c =>
    cases x with
    | leaveCall v => exact frames_leave
    | _ => rfl
  | _ => rfl

/-- What a step does to the frames. -/
theorem step_reframes (s : Setting) (m : Machine) : Reframes m (m.step s) := by
  unfold step
  split
  · exact reframes_evalStep
  · rename_i d hc
    exact reframes_execStep hc
  · exact .keeps rfl
  · exact .keeps rfl
  · rename_i v hc
    split
    · exact .keeps rfl
    · rename_i p rest hp
      exact reframes_receive hc hp
  · split
    · exact .keeps rfl
    · exact .keeps frames_unwind

/-! ### The frame of a binding -/

/-- The frame in which a method is bound. -/
def Receives (m : Machine) (f : FrameId) (o : Value) : Prop :=
  m.world.frames.tables[f]? = some [("this", o)]

lemma receives_bind (m : Machine) (o : Value) : (m.bind o).Receives m.world.frames.next o :=
  Array.getElem?_push_size

section
variable {f g : FrameId} {o v : Value} {name : String}

lemma Receives.own? (h : m.Receives f o) :
    m.world.frames.own? f name = if "this" = name then some o else none := by
  unfold Frames.own?
  rw [show m.world.frames.tables[f]? = some [("this", o)] from h]
  rfl

lemma Receives.binds (h : m.Receives f o) : m.world.frames.binds "this" f := by
  unfold Frames.binds
  rw [h.own?]
  rfl

/-- There is no other variable in it. -/
lemma Receives.eq_this (h : m.Receives f o) (hbinds : m.world.frames.binds name f) :
    name = "this" := by
  unfold Frames.binds at hbinds
  rw [h.own?] at hbinds
  by_contra hne
  rw [if_neg (Ne.symm hne)] at hbinds
  cases hbinds

lemma Receives.eq (h : m.Receives f o) (h' : m.Receives f v) : o = v := by
  have hboth := Option.some.inj (h.symm.trans h')
  cases hboth
  rfl

lemma Receives.keep (h : m.Receives f o) (hn : n.world.frames = m.world.frames) :
    n.Receives f o := by
  unfold Receives
  rwa [hn]

lemma Receives.write (h : m.Receives f o) (hn : n.world.frames = m.world.frames.write g name v)
    (hg : g ≠ f) : n.Receives f o := by
  unfold Receives
  rw [hn]
  refine (Array.getElem?_modify ..).trans ?_
  rw [if_neg hg]
  exact h

end

lemma Receives.push {f : FrameId} {o : Value} {t : Table Value} (h : m.Receives f o)
    (hn : n.world.frames = m.world.frames.push t) : n.Receives f o := by
  obtain ⟨hlt, hf⟩ := Array.getElem?_eq_some_iff.mp h
  unfold Receives
  rw [hn]
  exact (Array.getElem?_push_lt hlt).trans (congrArg some hf)

lemma Receives.enter {f : FrameId} {o : Value} (h : m.Receives f o) {c : Closure}
    {args : List Value} {site : Token} : (m.enter c args site).Receives f o := by
  obtain hsame | ⟨t, -, -, -, hpush⟩ := frames_enter m c args site
  · exact h.keep hsame
  · exact h.push hpush

lemma receives_readMember {o : Value} {c : Closure} {owner : ℕ} {name : Token}
    (hfield : m.world.field? owner name.lexeme = none) :
    (m.readMember owner o (some c) name).Receives m.world.frames.next o := by
  unfold readMember
  rw [hfield]
  unfold giveMethod
  dsimp only
  split
  · exact (receives_bind m o).enter
  · exact receives_bind m o

lemma receives_construct {k : ClassInfo} {c : Closure} (hc : k.initializer? = some c)
    {args : List Value} {site : Token} :
    (m.construct k args site).Receives m.world.frames.next (.object m.world.nextOwner k) := by
  unfold construct
  rw [hc]
  exact Receives.enter (m := { (m.change (·.addOwner)).bind (.object m.world.nextOwner k) with
    pending := .construct (.object m.world.nextOwner k) :: m.pending }) (receives_bind _ _)

/-- Where an object is to be made, the step makes it. -/
lemma step_construct {k : ClassInfo} (h : m.constructs? = some k) :
    ∃ args site ps, m.step s = ({ m with pending := ps } : Machine).construct k args site := by
  have hcall : ∀ {id args site ps}, args.length = k.arity →
      ({ m with pending := ps } : Machine).call s (.classValue id k) args site =
        ({ m with pending := ps } : Machine).construct k args site := fun h => if_pos h
  unfold constructs? at h
  split at h
  · rename_i paren ps id k' hp hc
    split at h
    · cases h
      rename_i harity
      exact ⟨[], paren, ps, (step_value hc hp).trans (hcall harity.symm)⟩
    · cases h
  · rename_i id k' paren found ps v hp hc
    split at h
    · cases h
      rename_i harity
      refine ⟨(v :: found).reverse, paren, ps, (step_value hc hp).trans (hcall ?_)⟩
      rw [List.length_reverse, List.length_cons, harity]
    · cases h
  · cases h

/-- After a binding the frame that was next holds the object. -/
theorem Binds.receives {o : Value} {c : Closure} (h : Binds m o c) :
    (m.step s).Receives m.world.frames.next o := by
  cases h with
  | @method id k name ps _ hc hp hfield hm =>
    have hread := receives_readMember (m := { m with pending := ps }) (o := .object id k) (c := c)
      hfield
    rw [← hm] at hread
    rw [step_value hc hp]
    exact hread
  | @static id k name ps _ hc hp hfield hm =>
    have hread := receives_readMember (m := { m with pending := ps }) (o := .classValue id k)
      (c := c) hfield
    rw [← hm] at hread
    rw [step_value hc hp]
    exact hread
  | @initializer k _ hk hc =>
    obtain ⟨args, site, ps, hstep⟩ := step_construct (s := s) hk
    rw [hstep]
    exact receives_construct (m := { m with pending := ps }) hc

/-! ### The function that is bound -/

/-- A function is given, or it is entered in a new frame, unless that is one call too many. -/
inductive HandsOver (m : Machine) (c : Closure) : Prop
  | given {id} : m.control = .value (.function id c) → HandsOver m c
  | entered {f} : m.control = .execAll c.decl.body → m.env = f :: c.env → HandsOver m c
  | refused {line} : m.control = .exit (.fail (.runtime line .stackOverflow)) → HandsOver m c

lemma handsOver_enter {c : Closure} {args : List Value} {site : Token} :
    (m.enter c args site).HandsOver c := by
  unfold enter
  split
  · exact .refused rfl
  · exact .entered rfl rfl

lemma handsOver_readMember {o : Value} {c : Closure} {owner : ℕ} {name : Token}
    (hfield : m.world.field? owner name.lexeme = none) :
    (m.readMember owner o (some c) name).HandsOver (c.within m.world.frames.next) := by
  unfold readMember
  rw [hfield]
  unfold giveMethod
  dsimp only
  split
  · exact handsOver_enter (c := c.within m.world.frames.next)
  · exact .given rfl

lemma handsOver_construct {k : ClassInfo} {c : Closure} (hc : k.initializer? = some c)
    {args : List Value} {site : Token} :
    (m.construct k args site).HandsOver (c.within m.world.frames.next) := by
  unfold construct
  rw [hc]
  exact handsOver_enter

/-- A binding hands over the method with the frame of the binding directly around it. -/
theorem Binds.handsOver {o : Value} {c : Closure} (h : Binds m o c) :
    (m.step s).HandsOver (c.within m.world.frames.next) := by
  cases h with
  | @method id k name ps _ hc hp hfield hm =>
    rw [step_value hc hp]
    change (Machine.readMember _ id _ (k.methods.get? name.lexeme) name).HandsOver _
    rw [hm]
    exact handsOver_readMember (m := { m with pending := ps }) hfield
  | @static id k name ps _ hc hp hfield hm =>
    rw [step_value hc hp]
    change (Machine.readMember _ id _ (k.statics.get? name.lexeme) name).HandsOver _
    rw [hm]
    exact handsOver_readMember (m := { m with pending := ps }) hfield
  | @initializer k _ hk hc =>
    obtain ⟨args, site, ps, hstep⟩ := step_construct (s := s) hk
    rw [hstep]
    exact handsOver_construct (m := { m with pending := ps }) hc

end Lox.Machine
