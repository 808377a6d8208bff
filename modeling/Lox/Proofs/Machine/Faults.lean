import Lox.Proofs.Machine.Returning

/-!
What a step of the machine can fail with, and where.

Most faults come from the values at hand. Only the access of a variable reports it as undefined,
apart from the end of an initializer that has no `this`; and no step reports a stray `break` or
`return`. The line of a fault is that of the operator, name or closing parenthesis whose turn it is.
-/

namespace Lox

/-- A fault that comes from the values at hand, from the depth of calls or from the surroundings. -/
def RuntimeFault.Ordinary : RuntimeFault → Prop
  | .undefinedVariable _ => False
  | .strayBreak => False
  | .strayReturn => False
  | _ => True

/-- A failure of the sink, or an ordinary fault at some line. -/
def Failure.Ordinary : Failure → Prop
  | .runtime _ f => f.Ordinary
  | .sink _ => True

/-- An ordinary fault on the line of a token. -/
inductive Failure.OrdinaryAt (site : Token) : Failure → Prop
  | intro {f : RuntimeFault} : f.Ordinary → OrdinaryAt site (.runtime site.line f)

lemma Failure.OrdinaryAt.ordinary {site : Token} {f : Failure} (h : f.OrdinaryAt site) :
    f.Ordinary := by
  cases h with
  | intro h => exact h

/-- The operator, name or closing parenthesis of an expression itself. -/
def Expr.site? : Expr → Option Token
  | .unary op _ => some op
  | .binary _ op _ => some op
  | .logical _ op _ => some op
  | .reference _ name => some name
  | .assign _ name _ => some name
  | .call _ paren _ => some paren
  | .property _ name => some name
  | .setProperty _ name _ => some name
  | .this _ keyword => some keyword
  | _ => none

namespace Operator

variable {op : Token} {l r v : Value} {e : Failure}

lemma ordinary_of_fault {α : Type} {f : RuntimeFault}
    (h : (fault op f : Except Failure α) = .error e) (hf : f.Ordinary) : e.OrdinaryAt op := by
  cases h
  exact .intro hf

lemma ordinary_of_unary (h : unary op v = .error e) : e.OrdinaryAt op := by
  unfold unary at h
  split at h
  · cases h
  · split at h
    · cases h
    · exact ordinary_of_fault h trivial
  · exact ordinary_of_fault h trivial

lemma ordinary_of_onNumbers {f : Float → Float → Value} (h : onNumbers op l r f = .error e) :
    e.OrdinaryAt op := by
  unfold onNumbers at h
  split at h
  · cases h
  · exact ordinary_of_fault h trivial

lemma ordinary_of_add (h : add op l r = .error e) : e.OrdinaryAt op := by
  unfold add at h
  split at h
  · cases h
  · cases h
  · cases h
  · exact ordinary_of_fault h trivial

lemma ordinary_of_divide (h : divide op l r = .error e) : e.OrdinaryAt op := by
  unfold divide at h
  split at h
  · split at h
    · exact ordinary_of_fault h trivial
    · cases h
  · exact ordinary_of_fault h trivial

lemma ordinary_of_binary (h : binary op l r = .error e) : e.OrdinaryAt op := by
  unfold binary at h
  split at h
  · cases h
  · cases h
  · cases h
  · exact ordinary_of_add h
  · exact ordinary_of_onNumbers h
  · exact ordinary_of_onNumbers h
  · exact ordinary_of_divide h
  · exact ordinary_of_onNumbers h
  · exact ordinary_of_onNumbers h
  · exact ordinary_of_onNumbers h
  · exact ordinary_of_onNumbers h
  · exact ordinary_of_fault h trivial

end Operator

namespace Machine

/-! ### Accesses of variables -/

/-- The reference whose variable the next step reads or writes. -/
def accesses? (m : Machine) : Option (NodeId × Token) :=
  match m.control, m.pending with
  | .eval (.reference id name), _ => some (id, name)
  | .eval (.this id keyword), _ => some (id, keyword)
  | .value _, .assign id name :: _ => some (id, name)
  | _, _ => none

/-- The operator, name or closing parenthesis of the expression that something waits for. -/
def Pending.site? : Pending → Option Token
  | .unary op => some op
  | .binaryLeft op _ => some op
  | .binaryRight _ op => some op
  | .logical op _ => some op
  | .assign _ name => some name
  | .callee paren _ => some paren
  | .argument _ paren _ _ => some paren
  | .property name => some name
  | .target name _ => some name
  | .field _ name => some name
  | _ => none

/-- The operator, name or closing parenthesis whose turn it is in the next step. -/
def site? (m : Machine) : Option Token :=
  match m.control, m.pending with
  | .eval e, _ => e.site?
  | .value _, p :: _ => p.site?
  | _, _ => none

/-- The frame that has the variable of a node: the frame at its distance, or else that of the
globals. -/
def holderOf? (s : Setting) (m : Machine) (id : NodeId) (name : Token) : Option FrameId :=
  match s.distances[id]? with
  | some d => m.world.frames.holderAt? m.env d name.lexeme
  | none => m.world.frames.holder? Env.globals name.lexeme

variable {s : Setting} {m : Machine} {id : NodeId} {name : Token}

lemma binds_of_holderOf? {f : FrameId} (h : m.holderOf? s id name = some f) :
    m.world.frames.binds name.lexeme f := by
  unfold holderOf? at h
  split at h
  · exact (Option.filter_eq_some_iff.mp h).2
  · exact List.find?_some h

lemma holderOf?_eq_some {d : ℕ} {f : FrameId} (hd : s.distances[id]? = some d)
    (hf : m.env[d]? = some f) (hbinds : m.world.frames.binds name.lexeme f) :
    m.holderOf? s id name = some f := by
  unfold holderOf?
  rw [hd]
  exact Option.filter_eq_some_iff.mpr ⟨hf, hbinds⟩

/-- A variable is read in the frame that has it. -/
lemma readVariable_eq (s : Setting) (m : Machine) (id : NodeId) (name : Token) :
    m.readVariable s id name =
      m.giveFound name ((m.holderOf? s id name).bind (m.world.frames.own? · name.lexeme)) := by
  unfold readVariable holderOf?
  cases s.distances[id]? with
  | none => rfl
  | some d => exact congrArg (m.giveFound name) (m.world.frames.getAt?_eq m.env d name.lexeme)

/-! ### Failures of a step -/

/-- The failure that is on its way out. -/
def Control.failure? : Control → Option Failure
  | .exit (.fail f) => some f
  | _ => none

lemma Control.failure?_eq_some {c : Control} {f : Failure} :
    c.failure? = some f ↔ c = .exit (.fail f) := by
  unfold failure?
  split <;> simp_all

/-- A machine that reports a variable as undefined in its next step. -/
inductive Misses (s : Setting) (m : Machine) : Failure → Prop
  | access {id : NodeId} {name : Token} :
      m.accesses? = some (id, name) → m.holderOf? s id name = none →
      Misses s m (.runtime name.line (.undefinedVariable name.lexeme))
  /-- An initializer comes to its end, and is not bound to an object. -/
  | unbound {env : Env} {c : Closure} {ps : List Pending} : m.control.isOutcome →
      m.pending = .leaveCall env c :: ps → c.isInitializer →
      m.world.frames.getAt? c.env 0 "this" = none →
      Misses s m (.runtime c.decl.name.line (.undefinedVariable "this"))

/-- If a machine fails, then in one of these ways. -/
def Fails (P : Failure → Prop) (m : Machine) : Prop :=
  ∀ f, m.control = .exit (.fail f) → P f

section
variable {P : Failure → Prop} {v : Value} {c : Closure} {args : List Value} {site : Token}

lemma Fails.mono {Q : Failure → Prop} (h : m.Fails P) (hPQ : ∀ f, P f → Q f) : m.Fails Q :=
  fun f hf => hPQ f (h f hf)

lemma fails_fail {f : Failure} (h : P f) : (m.fail f).Fails P := by
  intro g hg
  cases hg
  exact h

lemma fails_give : (m.give v).Fails P := by
  intro f hf
  cases hf

lemma fails_giveFound {found : Option Value}
    (h : found = none → P (.runtime name.line (.undefinedVariable name.lexeme))) :
    (m.giveFound name found).Fails P := by
  unfold giveFound
  split
  · exact fails_give
  · exact fails_fail (h rfl)

lemma fails_readVariable
    (h : m.holderOf? s id name = none → P (.runtime name.line (.undefinedVariable name.lexeme))) :
    (m.readVariable s id name).Fails P := by
  rw [readVariable_eq]
  -- a frame that has the variable has a value for it
  refine fails_giveFound fun hnone => h ?_
  by_contra hsome
  obtain ⟨f, hf⟩ := Option.ne_none_iff_exists'.mp hsome
  have hbinds := binds_of_holderOf? hf
  rw [hf, Option.bind_some] at hnone
  rw [Frames.binds, hnone] at hbinds
  cases hbinds

lemma fails_writeVariable
    (h : m.holderOf? s id name = none → P (.runtime name.line (.undefinedVariable name.lexeme))) :
    (m.writeVariable s id name v).Fails P := by
  change (m.writeIn (m.holderOf? s id name) name v).Fails P
  unfold writeIn
  split
  · exact fails_give
  · rename_i hnone
    exact fails_fail (h hnone)

lemma fails_leave {env : Env}
    (h : c.isInitializer → m.world.frames.getAt? c.env 0 "this" = none →
      P (.runtime c.decl.name.line (.undefinedVariable "this"))) :
    (m.leave env c v).Fails P := by
  unfold leave
  dsimp only
  split
  · rename_i hc
    split
    · exact fails_give
    · rename_i hnone
      exact fails_fail (h hc hnone)
  · exact fails_give

lemma fails_giveResult {r : Except Failure Value} (h : ∀ f, r = .error f → f.OrdinaryAt site) :
    (m.giveResult r).Fails (Failure.OrdinaryAt site) := by
  cases r with
  | ok v => exact fails_give
  | error f => exact fails_fail (h f rfl)

lemma fails_enter : (m.enter c args site).Fails (Failure.OrdinaryAt site) := by
  unfold enter
  split
  · exact fails_fail (.intro trivial)
  · intro f hf
    cases hf

lemma fails_construct {k : ClassInfo} : (m.construct k args site).Fails (Failure.OrdinaryAt site) := by
  unfold construct
  dsimp only
  split
  · exact fails_give
  · exact fails_enter

lemma fails_call {callee : Value} : (m.call s callee args site).Fails (Failure.OrdinaryAt site) := by
  unfold call
  split
  · exact fails_fail (.intro trivial)
  · split
    · unfold invoke
      split
      · split
        · exact fails_give
        · exact fails_fail (.intro trivial)
      · exact fails_enter
      · exact fails_construct
      · exact fails_fail (.intro trivial)
    · exact fails_fail (.intro trivial)

lemma fails_nextArgument {callee : Value} {rest : List Expr} :
    (m.nextArgument s callee site args rest).Fails (Failure.OrdinaryAt site) := by
  cases rest with
  | nil => exact fails_call
  | cons e rest =>
    intro f hf
    cases hf

lemma fails_readMember {owner : ℕ} {object : Value} {method? : Option Closure} :
    (m.readMember owner object method? name).Fails (Failure.OrdinaryAt name) := by
  unfold readMember
  split
  · exact fails_give
  · unfold giveMethod
    dsimp only
    split
    · exact fails_enter
    · exact fails_give
  · exact fails_fail (.intro trivial)

lemma fails_readProperty {object : Value} :
    (m.readProperty object name).Fails (Failure.OrdinaryAt name) := by
  unfold readProperty
  split
  · exact fails_readMember
  · exact fails_readMember
  · exact fails_fail (.intro trivial)

lemma fails_takeTarget {object : Value} {e : Expr} :
    (m.takeTarget object name e).Fails (Failure.OrdinaryAt name) := by
  unfold takeTarget
  split
  · intro f hf
    cases hf
  · intro f hf
    cases hf
  · exact fails_fail (.intro trivial)

lemma fails_printLine : (m.printLine v).Fails fun f => ∃ g, f = .sink g := by
  unfold printLine
  dsimp only
  split
  · exact fails_give
  · exact fails_fail ⟨_, rfl⟩

end

/-- A failure that arises in the next step, rather than being on its way out already. -/
inductive Arises (s : Setting) (m : Machine) : Failure → Prop
  | sink {g : SinkFault} : Arises s m (.sink g)
  | site {t : Token} {f : Failure} : m.site? = some t → f.OrdinaryAt t → Arises s m f
  | misses {f : Failure} : m.Misses s f → Arises s m f

/-- A step that fails goes on with a failure, or one arises in it. -/
theorem step_fails_or_arises (s : Setting) (m : Machine) : (m.step s).Fails fun f =>
    m.control = .exit (.fail f) ∨ m.Arises s f := by
  have hsite : ∀ {n : Machine} {t : Token}, m.site? = some t → n.Fails (Failure.OrdinaryAt t) →
      n.Fails fun f => m.control = .exit (.fail f) ∨ m.Arises s f :=
    fun ht h => h.mono fun _ hf => .inr (.site ht hf)
  have hquiet : ∀ {n : Machine}, (∀ f, n.control ≠ .exit (.fail f)) →
      n.Fails fun f => m.control = .exit (.fail f) ∨ m.Arises s f :=
    fun h f hf => absurd hf (h f)
  obtain ⟨control, pending, env, depth, w⟩ := m
  cases control with
  | eval e =>
    cases e with
    | reference id name => exact fails_readVariable fun h => .inr (.misses (.access rfl h))
    | this id keyword => exact fails_readVariable fun h => .inr (.misses (.access rfl h))
    | _ => exact hquiet (by simp [step, evalStep, await, give])
  | exec d =>
    cases d with
    | declare name initial =>
      cases initial <;> exact hquiet (by simp [step, execStep, await, define, finish, give])
    | returnFrom keyword value =>
      cases value <;> exact hquiet (by simp [step, execStep, await])
    | _ =>
      exact hquiet (by simp [step, execStep, await, openBlock, declareFunction, declareClass,
        define, finish, give])
  | execAll body =>
    cases body <;> exact hquiet (by simp [step, await, finish, give])
  | value v =>
    cases pending with
    | nil => exact hquiet (by simp [step])
    | cons p ps =>
      cases p with
      | unary op => exact hsite rfl (fails_giveResult fun f => Operator.ordinary_of_unary)
      | binaryRight l op => exact hsite rfl (fails_giveResult fun f => Operator.ordinary_of_binary)
      | logical op r =>
        refine hquiet fun f => ?_
        simp only [step, receive]
        split <;> simp [give]
      | assign id name => exact fails_writeVariable fun h => .inr (.misses (.access rfl h))
      | callee paren arguments => exact hsite rfl fails_nextArgument
      | argument callee paren found rest => exact hsite rfl fails_nextArgument
      | property name => exact hsite rfl fails_readProperty
      | target name value => exact hsite rfl fails_takeTarget
      | print =>
        refine fails_printLine.mono fun f hf => ?_
        obtain ⟨g, rfl⟩ := hf
        exact .inr .sink
      | branch t e =>
        refine hquiet fun f => ?_
        simp only [step, receive]
        split
        · simp
        · split <;> simp [finish, give]
      | loopTest c body =>
        refine hquiet fun f => ?_
        simp only [step, receive]
        split <;> simp [await, finish, give]
      | leaveCall env c => exact fails_leave fun hc h => .inr (.misses (.unbound rfl rfl hc h))
      | _ => exact hquiet (by simp [step, receive, await, give, define, finish])
  | exit x =>
    cases pending with
    | nil => exact fun f hf => .inl hf
    | cons p ps =>
      cases p with
      | loopBody c body =>
        cases x with
        | leaveLoop => exact fails_give
        | leaveCall v => exact hquiet (by simp [step, unwind])
        | fail g => exact fun f hf => .inl hf
      | leaveCall env c =>
        cases x with
        | leaveCall v => exact fails_leave fun hc h => .inr (.misses (.unbound rfl rfl hc h))
        | leaveLoop => exact hquiet (by simp [step, unwind])
        | fail g => exact fun f hf => .inl hf
      | _ => exact fun f hf => .inl hf

/-- A step that fails goes on with a failure, fails in an ordinary way, or misses a variable. -/
theorem step_fails (s : Setting) (m : Machine) : (m.step s).Fails fun f =>
    m.control = .exit (.fail f) ∨ f.Ordinary ∨ m.Misses s f := by
  refine (step_fails_or_arises s m).mono fun f hf => hf.imp_right fun h => ?_
  cases h with
  | sink => exact .inl trivial
  | site _ h => exact .inl h.ordinary
  | misses h => exact .inr h

end Machine

end Lox
