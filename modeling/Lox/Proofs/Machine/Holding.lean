import Lox.Proofs.Machine.Binding
import Lox.Proofs.Machine.Steps

/-!
The values that a machine holds, and where they come from.

A step passes values on from one place to another. Apart from plain values it makes new ones only
where a function or a class is declared, where a method is bound and where an object is made. So
what is said of all values that a machine holds goes on to be true if it is true of these.
-/

namespace Lox

/-- The number of a class or an object. -/
def Value.owner? : Value → Option ℕ
  | .classValue id _ => some id
  | .object id _ => some id
  | _ => none

namespace Machine

/-- The values that something keeps while it waits. -/
def Pending.values : Pending → List Value
  | .binaryRight left _ => [left]
  | .argument v _ found _ => v :: found
  | .construct object => [object]
  | _ => []

/-- A machine holds a value: the value is in hand or on its way out of a call, something keeps it,
or it is that of a variable or of a field. -/
inductive Holds (m : Machine) (v : Value) : Prop
  | inHand : m.control = .value v → Holds m v
  | leaving : m.control = .exit (.leaveCall v) → Holds m v
  | waiting {p} : p ∈ m.pending → v ∈ p.values → Holds m v
  | bound {f name} : m.world.frames.own? f name = some v → Holds m v
  | field {owner name} : m.world.field? owner name = some v → Holds m v

/-- The values that the next step makes, apart from plain ones. -/
inductive Creates (m : Machine) : Value → Prop
  | function {d} : m.control = .exec (.function d) →
      Creates m (.function m.world.functions ⟨d, m.env, false⟩)
  | classValue {name ms ss} : m.control = .exec (.classDecl name ms ss) →
      Creates m (.classValue m.world.nextOwner
        ⟨name.lexeme, methodTable m.env ms, staticTable m.env ss⟩)
  | method {o c} : m.Binds o c →
      Creates m (.function m.world.functions (c.within m.world.frames.next))
  | object {k} : m.constructs? = some k → Creates m (.object m.world.nextOwner k)

/-- What is said of the values that a machine holds, of those on their way out of a call, of what
waits and of the number of the next class or object. -/
structure Judgment where
  value : Value → Prop
  leaving : Value → Prop
  waiting : Pending → Prop
  owners : ℕ → Prop

namespace Judgment

/-- It goes with values wherever a step may pass them on to. -/
structure Sound (J : Judgment) : Prop where
  plain : ∀ v, v.IsPlain → J.value v
  left : ∀ v, J.leaving v → J.value v
  waits : ∀ p, p ≠ .giveBack → (∀ v ∈ p.values, J.value v) → J.waiting p
  kept : ∀ p, J.waiting p → ∀ v ∈ p.values, J.value v
  owners : ∀ n, J.owners n → J.owners (n + 1)

/-- It is true of what waits and of a world. -/
structure Stored (J : Judgment) (ps : List Pending) (w : World) : Prop where
  waiting : ∀ p ∈ ps, J.waiting p
  bound : ∀ f name v, w.frames.own? f name = some v → J.value v
  fields : ∀ owner name v, w.field? owner name = some v → J.value v
  owners : J.owners w.nextOwner

/-- It is true of a whole machine. -/
structure Met (J : Judgment) (m : Machine) : Prop extends Stored J m.pending m.world where
  inHand : ∀ v, m.control = .value v → J.value v
  leaving : ∀ v, m.control = .exit (.leaveCall v) → J.leaving v

/-- It is true of what the next step adds. -/
structure Allows (J : Judgment) (m : Machine) : Prop where
  created : ∀ v, m.Creates v → J.value v
  asks : ∀ keyword e, m.control = .exec (.returnFrom keyword (some e)) → J.waiting .giveBack
  returns : ∀ keyword, m.control = .exec (.returnFrom keyword none) → J.leaving .nil
  gives : ∀ v ps, m.control = .value v → m.pending = .giveBack :: ps → J.leaving v

variable {J : Judgment} {s : Setting} {m : Machine} {ps : List Pending} {p : Pending} {w : World}
  {v : Value} {c : Closure} {args : List Value} {site name : Token} {e : Expr}

namespace Stored

/-! ### Worlds -/

lemma cons (h : J.Stored ps w) (hp : J.waiting p) : J.Stored (p :: ps) w :=
  ⟨List.forall_mem_cons.mpr ⟨hp, h.waiting⟩, h.bound, h.fields, h.owners⟩

/-- Functions and output do not matter. -/
lemma of_eq {w' : World} (h : J.Stored ps w) (hframes : w'.frames = w.frames)
    (hfields : w'.fields = w.fields) : J.Stored ps w' := by
  obtain ⟨frames, fields, functions, sink⟩ := w
  cases hframes
  cases hfields
  exact ⟨h.waiting, h.bound, h.fields, h.owners⟩

lemma write {f : FrameId} {name : String} (h : J.Stored ps w) (hv : J.value v) :
    J.Stored ps (w.write f name v) := by
  refine ⟨h.waiting, fun g other u hu => ?_, h.fields, h.owners⟩
  unfold World.write at hu
  rw [Frames.own?_write] at hu
  split at hu
  · cases hu
    exact hv
  · exact h.bound g other u hu

lemma define {env : Env} {name : String} (h : J.Stored ps w) (hv : J.value v) :
    J.Stored ps (w.define env name v) := by
  cases env with
  | nil => exact h
  | cons f env => exact h.write hv

lemma addFrame {t : Table Value} (h : J.Stored ps w)
    (ht : ∀ name v, t.get? name = some v → J.value v) : J.Stored ps (w.addFrame t) := by
  refine ⟨h.waiting, fun f name u hu => ?_, h.fields, h.owners⟩
  unfold World.addFrame at hu
  rw [Frames.own?_push] at hu
  split at hu
  · exact ht name u hu
  · exact h.bound f name u hu

lemma addOwner (h : J.Stored ps w) (hJ : J.Sound) : J.Stored ps w.addOwner := by
  refine ⟨h.waiting, h.bound, fun owner name u hu => ?_, ?_⟩
  · rw [World.field?_addOwner] at hu
    exact h.fields owner name u hu
  · rw [World.nextOwner_addOwner]
    exact hJ.owners _ h.owners

lemma setField {owner : ℕ} {name : String} (h : J.Stored ps w) (hv : J.value v) :
    J.Stored ps (w.setField owner name v) := by
  refine ⟨h.waiting, h.bound, fun owner' name' u hu => ?_, ?_⟩
  · rw [World.field?_setField] at hu
    split at hu
    · cases hu
      exact hv
    · exact h.fields owner' name' u hu
  · rw [World.nextOwner_setField]
    exact h.owners

/-! ### Outcomes -/

lemma give (h : J.Stored m.pending m.world) (hv : J.value v) : J.Met (m.give v) := by
  refine ⟨h, fun u hu => ?_, nofun⟩
  cases hu
  exact hv

lemma finish (h : J.Stored m.pending m.world) (hJ : J.Sound) : J.Met m.finish :=
  h.give (hJ.plain .nil trivial)

lemma fail {f : Failure} (h : J.Stored m.pending m.world) : J.Met (m.fail f) :=
  ⟨h, nofun, nofun⟩

lemma giveResult {r : Except Failure Value} (h : J.Stored m.pending m.world)
    (hr : ∀ v, r = .ok v → J.value v) : J.Met (m.giveResult r) := by
  cases r with
  | ok v => exact h.give (hr v rfl)
  | error f => exact h.fail

lemma await (h : J.Stored m.pending m.world) (hp : J.waiting p) : J.Met (m.await p (.eval e)) :=
  ⟨h.cons hp, nofun, nofun⟩

lemma get? {env : Env} {name : String} (h : J.Stored ps w)
    (hv : w.frames.get? env name = some v) : J.value v := by
  obtain ⟨f, -, hf⟩ := Option.bind_eq_some_iff.mp hv
  exact h.bound f name v hf

lemma getAt? {env : Env} {d : ℕ} {name : String} (h : J.Stored ps w)
    (hv : w.frames.getAt? env d name = some v) : J.value v := by
  obtain ⟨f, -, hf⟩ := Option.bind_eq_some_iff.mp hv
  exact h.bound f name v hf

lemma readVariable {id : NodeId} (h : J.Stored m.pending m.world) :
    J.Met (m.readVariable s id name) := by
  have hfound : ∀ found : Option Value, (∀ v, found = some v → J.value v) →
      J.Met (m.giveFound name found) := by
    intro found hv
    cases found with
    | none => exact h.fail
    | some v => exact h.give (hv v rfl)
  refine hfound _ fun v hv => ?_
  split at hv
  · exact h.getAt? hv
  · exact h.get? hv

lemma writeIn {holder : Option FrameId} (h : J.Stored m.pending m.world) (hv : J.value v) :
    J.Met (m.writeIn holder name v) := by
  cases holder with
  | none => exact h.fail
  | some f => exact (h.write hv).give (m := m.change _) hv

lemma defineVariable (h : J.Stored m.pending m.world) (hJ : J.Sound) (hv : J.value v) :
    J.Met (m.define name v) :=
  (h.define hv).finish (m := m.change _) hJ

/-! ### Calls -/

lemma enter (h : J.Stored m.pending m.world) (hJ : J.Sound) (hargs : ∀ v ∈ args, J.value v) :
    J.Met (m.enter c args site) := by
  unfold Machine.enter
  split
  · exact h.fail
  · have hframe : J.Stored m.pending (m.world.addFrame (parameterFrame c.decl.paramList args)) :=
      h.addFrame fun name v hv => hargs v (mem_of_get?_parameterFrame hv)
    have hcall : J.waiting (.leaveCall m.env c) := hJ.waits _ Pending.noConfusion nofun
    exact ⟨hframe.cons hcall, nofun, nofun⟩

lemma leave {env : Env} (h : J.Stored m.pending m.world) (hv : J.value v) :
    J.Met (m.leave env c v) := by
  have h' : J.Stored { m with env, depth := m.depth - 1 }.pending m.world := h
  unfold Machine.leave
  dsimp only
  split
  · split
    · rename_i this hthis
      exact h'.give (h.getAt? hthis)
    · exact h'.fail
  · exact h'.give hv

lemma bind (h : J.Stored m.pending m.world) (hv : J.value v) :
    J.Stored m.pending (m.bind v).world := by
  refine h.addFrame fun name u hu => ?_
  unfold Table.get? at hu
  split at hu
  · cases hu
    exact hv
  · cases hu

lemma construct {k : ClassInfo} (h : J.Stored m.pending m.world) (hJ : J.Sound)
    (hargs : ∀ v ∈ args, J.value v) (hnew : J.value (.object m.world.nextOwner k)) :
    J.Met (m.construct k args site) := by
  have howner : J.Stored m.pending (m.change (·.addOwner)).world := h.addOwner hJ
  unfold Machine.construct
  dsimp only
  split
  · exact howner.give hnew
  · have hbound := Stored.bind (m := m.change (·.addOwner)) howner hnew
    have hwaits : J.waiting (.construct (.object m.world.nextOwner k)) :=
      hJ.waits _ Pending.noConfusion (List.forall_mem_singleton.mpr hnew)
    exact enter (m := { (m.change (·.addOwner)).bind (.object m.world.nextOwner k) with
      pending := .construct (.object m.world.nextOwner k) :: m.pending }) (hbound.cons hwaits) hJ
        hargs

lemma call {callee : Value} (h : J.Stored m.pending m.world) (hJ : J.Sound)
    (hhost : s.host.AddsNoCode) (hargs : ∀ v ∈ args, J.value v)
    (hnew : ∀ id k, callee = .classValue id k → args.length = k.arity →
      J.value (.object m.world.nextOwner k)) : J.Met (m.call s callee args site) := by
  unfold Machine.call
  split
  · exact h.fail
  · rename_i arity harity
    split
    · rename_i hlength
      unfold invoke
      split
      · split
        · rename_i v hv
          exact h.give ((hhost _ _ v hv).elim (hJ.plain v) (hargs v))
        · exact h.fail
      · exact h.enter hJ hargs
      · rename_i id k
        cases harity
        exact h.construct hJ hargs (hnew id k rfl hlength)
      · exact h.fail
    · exact h.fail

lemma nextArgument {callee : Value} {found : List Value} {rest : List Expr}
    (h : J.Stored m.pending m.world) (hJ : J.Sound) (hhost : s.host.AddsNoCode)
    (hcallee : J.value callee) (hfound : ∀ v ∈ found, J.value v)
    (hnew : rest = [] → ∀ id k, callee = .classValue id k → found.length = k.arity →
      J.value (.object m.world.nextOwner k)) :
    J.Met (m.nextArgument s callee site found rest) := by
  cases rest with
  | nil =>
    refine h.call hJ hhost (fun v hv => hfound v (List.mem_reverse.mp hv)) fun id k hk hlength => ?_
    rw [List.length_reverse] at hlength
    exact hnew rfl id k hk hlength
  | cons e rest =>
    exact h.await (hJ.waits _ Pending.noConfusion (List.forall_mem_cons.mpr ⟨hcallee, hfound⟩))

/-! ### Properties -/

lemma readMember {owner : ℕ} {object : Value} {method? : Option Closure}
    (h : J.Stored m.pending m.world) (hJ : J.Sound) (hobject : J.value object)
    (hnew : ∀ c, m.world.field? owner name.lexeme = none → method? = some c →
      J.value (.function m.world.functions (c.within m.world.frames.next))) :
    J.Met (m.readMember owner object method? name) := by
  unfold Machine.readMember
  split
  · rename_i hv
    exact h.give (h.fields owner name.lexeme _ hv)
  · rename_i c hfield
    have hbound := h.bind hobject
    unfold giveMethod
    dsimp only
    split
    · exact enter (m := m.bind object) hbound hJ nofun
    · have hadded : J.Stored m.pending (m.bind object).world.addFunction := hbound.of_eq rfl rfl
      exact hadded.give (m := (m.bind object).change (·.addFunction)) (hnew c hfield rfl)
  · exact h.fail

lemma takeTarget {object : Value} (h : J.Stored m.pending m.world) (hJ : J.Sound) :
    J.Met (m.takeTarget object name e) := by
  have hwaits : ∀ id, J.waiting (.field id name) := fun id =>
    hJ.waits _ Pending.noConfusion nofun
  cases object with
  | object id k => exact h.await (hwaits id)
  | classValue id k => exact h.await (hwaits id)
  | _ => exact h.fail

lemma printLine (h : J.Stored m.pending m.world) (hJ : J.Sound) : J.Met (m.printLine v) := by
  have hput : ∀ bytes, J.Stored m.pending (m.change (·.put bytes)).world := fun _ =>
    h.of_eq rfl rfl
  unfold Machine.printLine
  dsimp only
  split
  · exact (hput _).finish hJ
  · exact (hput _).fail

end Stored

/-! ### The step -/

lemma met_evalStep (h : J.Stored m.pending m.world) (hJ : J.Sound) : J.Met (m.evalStep s e) := by
  cases e with
  | literal l => exact h.give (hJ.plain _ (by cases l <;> trivial))
  | group e => exact ⟨h, nofun, nofun⟩
  | reference id name => exact h.readVariable
  | this id keyword => exact h.readVariable
  | _ => exact h.await (hJ.waits _ Pending.noConfusion nofun)

lemma met_execStep {d : Stmt} (h : J.Stored m.pending m.world) (hJ : J.Sound)
    (hallows : J.Allows m) (hc : m.control = .exec d) : J.Met (m.execStep d) := by
  cases d with
  | declare name initial =>
    cases initial with
    | none => exact h.defineVariable hJ (hJ.plain .nil trivial)
    | some e => exact h.await (hJ.waits _ Pending.noConfusion nofun)
  | block body =>
    have hblock : J.waiting (.leaveBlock m.env) := hJ.waits _ Pending.noConfusion nofun
    exact ⟨(h.addFrame (t := []) nofun).cons hblock, nofun, nofun⟩
  | breakLoop keyword => exact ⟨h, nofun, nofun⟩
  | function d =>
    exact Stored.defineVariable (m := m.change (·.addFunction)) (h.of_eq rfl rfl) hJ
      (hallows.created _ (.function hc))
  | returnFrom keyword value =>
    cases value with
    | none =>
      refine ⟨h, nofun, fun v hv => ?_⟩
      cases hv
      exact hallows.returns keyword hc
    | some e => exact h.await (hallows.asks keyword e hc)
  | classDecl name methods statics =>
    exact Stored.defineVariable (m := m.change (·.addOwner)) (h.addOwner hJ) hJ
      (hallows.created _ (.classValue hc))
  | _ => exact h.await (hJ.waits _ Pending.noConfusion nofun)

lemma met_readProperty (h : J.Stored ps m.world) (hJ : J.Sound) (hallows : J.Allows m)
    (hc : m.control = .value v) (hv : J.value v) (hps : m.pending = .property name :: ps) :
    J.Met (({ m with pending := ps } : Machine).readProperty v name) := by
  cases v with
  | object id k =>
    exact Stored.readMember (m := { m with pending := ps }) h hJ hv fun c hfield hm =>
      hallows.created _ (.method (.method hc hps hfield hm))
  | classValue id k =>
    exact Stored.readMember (m := { m with pending := ps }) h hJ hv fun c hfield hm =>
      hallows.created _ (.method (.static hc hps hfield hm))
  | _ => exact Stored.fail (m := { m with pending := ps }) h

lemma met_receive (h : J.Met m) (hJ : J.Sound) (hallows : J.Allows m) (hhost : s.host.AddsNoCode)
    (hc : m.control = .value v) (hps : m.pending = p :: ps) :
    J.Met (({ m with pending := ps } : Machine).receive s p v) := by
  have hv : J.value v := h.inHand v hc
  have hwaiting : J.waiting p ∧ ∀ q ∈ ps, J.waiting q := by
    have hall := h.waiting
    rw [hps] at hall
    exact List.forall_mem_cons.mp hall
  have hstored : J.Stored ps m.world := ⟨hwaiting.2, h.bound, h.fields, h.owners⟩
  have hkept : ∀ u ∈ p.values, J.value u := hJ.kept p hwaiting.1
  let n : Machine := { m with pending := ps }
  have hn : J.Stored n.pending n.world := hstored
  have hawait : ∀ {q : Pending} {e : Expr}, q ≠ .giveBack → (∀ u ∈ q.values, J.value u) →
      J.Met (n.await q (.eval e)) := fun hq hvalues => hn.await (hJ.waits _ hq hvalues)
  have htake : ∀ {control : Control}, (∀ u, control ≠ .value u) →
      (∀ u, control ≠ .exit (.leaveCall u)) → J.Met { n with control } :=
    fun hvalue hexit => ⟨hn, fun u hu => absurd hu (hvalue u), fun u hu => absurd hu (hexit u)⟩
  cases p with
  | unary op => exact hn.giveResult fun u hu => hJ.plain u (isPlain_unary hu)
  | binaryLeft op right => exact hawait Pending.noConfusion (List.forall_mem_singleton.mpr hv)
  | binaryRight left op =>
    refine hn.giveResult fun u hu => ?_
    obtain hplain | rfl := binary_eq_ok hu
    · exact hJ.plain u hplain
    · exact hv
  | logical op right =>
    unfold receive
    dsimp only
    split
    · exact hn.give hv
    · exact htake nofun nofun
  | conditional t e => exact htake nofun nofun
  | assign id name => exact hn.writeIn hv
  | callee paren arguments =>
    refine hn.nextArgument hJ hhost hv nofun ?_
    rintro rfl id k rfl harity
    refine hallows.created _ (.object ?_)
    unfold constructs?
    rw [hc, hps]
    exact if_pos harity.symm
  | argument callee paren found rest =>
    obtain ⟨hcallee, hfound⟩ := List.forall_mem_cons.mp hkept
    refine hn.nextArgument hJ hhost hcallee (List.forall_mem_cons.mpr ⟨hv, hfound⟩) ?_
    rintro rfl id k rfl harity
    refine hallows.created _ (.object ?_)
    unfold constructs?
    rw [hc, hps]
    exact if_pos harity
  | property name => exact met_readProperty hstored hJ hallows hc hv hps
  | target name value => exact hn.takeTarget hJ
  | field owner name => exact (hn.setField hv).give (m := n.change _) hv
  | discard => exact hn.finish hJ
  | print => exact hn.printLine hJ
  | declare name => exact hn.defineVariable hJ hv
  | branch t e =>
    unfold receive
    dsimp only
    split
    · exact htake nofun nofun
    · cases e with
      | none => exact hn.finish hJ
      | some e => exact htake nofun nofun
  | loopTest c body =>
    unfold receive
    dsimp only
    split
    · exact ⟨hn.cons (hJ.waits _ Pending.noConfusion nofun), nofun, nofun⟩
    · exact hn.finish hJ
  | loopBody c body => exact hawait Pending.noConfusion nofun
  | giveBack =>
    refine ⟨hn, nofun, fun u hu => ?_⟩
    cases hu
    exact hallows.gives v ps hc hps
  | sequence rest => exact htake nofun nofun
  | leaveBlock env => exact Stored.finish (m := { n with env }) hn hJ
  | leaveCall env c => exact hn.leave (hJ.plain .nil trivial)
  | construct object => exact hn.give (hkept object (List.mem_singleton_self _))

lemma met_unwind {x : Exit} (h : J.Met m) (hJ : J.Sound) (hc : m.control = .exit x)
    (hps : m.pending = p :: ps) :
    J.Met (({ m with pending := ps } : Machine).unwind p x) := by
  have hn : J.Stored ps m.world := by
    refine ⟨fun q hq => h.waiting q ?_, h.bound, h.fields, h.owners⟩
    rw [hps]
    exact List.mem_cons_of_mem _ hq
  have hpass : ∀ env depth, J.Met { m with pending := ps, env, depth } := fun _ _ =>
    ⟨hn, h.inHand, h.leaving⟩
  unfold unwind
  split
  · exact Stored.finish (m := { m with pending := ps }) hn hJ
  · exact hpass _ _
  · rename_i env c v
    exact Stored.leave (m := { m with pending := ps }) hn (hJ.left v (h.leaving v hc))
  · exact hpass _ _
  · exact hpass _ _

/-- What is true of all that a machine holds, and of all that a step adds, is true after the
step. -/
theorem Met.step (h : J.Met m) (hJ : J.Sound) (hallows : J.Allows m) (hhost : s.host.AddsNoCode) :
    J.Met (m.step s) := by
  unfold Machine.step
  split
  · exact met_evalStep h.toStored hJ
  · rename_i d hc
    exact met_execStep h.toStored hJ hallows hc
  · exact h.toStored.finish hJ
  · exact ⟨h.toStored.cons (hJ.waits _ Pending.noConfusion nofun), nofun, nofun⟩
  · rename_i v hc
    split
    · exact h
    · rename_i p ps hps
      exact met_receive h hJ hallows hhost hc hps
  · rename_i x hc
    split
    · exact h
    · rename_i p ps hps
      exact met_unwind h hJ hc hps

end Judgment

/-! ### Where values come from -/

variable {s : Setting} {m : Machine} {v : Value} {n : ℕ}

/-- A value that a machine holds after a step was held before, or is made by the step. -/
theorem Holds.of_step (h : (m.step s).Holds v) (hhost : s.host.AddsNoCode) :
    v.IsPlain ∨ m.Holds v ∨ m.Creates v := by
  let known (v : Value) : Prop := v.IsPlain ∨ m.Holds v ∨ m.Creates v
  let J : Judgment := ⟨known, known, fun p => ∀ v ∈ p.values, known v, fun _ => True⟩
  have hsound : J.Sound :=
    ⟨fun _ h => .inl h, fun _ h => h, fun _ _ h => h, fun _ h => h, fun _ _ => trivial⟩
  have hold : ∀ {v}, m.Holds v → known v := fun h => .inr (.inl h)
  have hmet : J.Met m := by
    refine ⟨⟨?_, ?_, ?_, trivial⟩, ?_, ?_⟩
    · exact fun p hp v hv => hold (.waiting hp hv)
    · exact fun f name v hv => hold (.bound hv)
    · exact fun owner name v hv => hold (.field hv)
    · exact fun v hv => hold (.inHand hv)
    · exact fun v hv => hold (.leaving hv)
  have hallows : J.Allows m := by
    refine ⟨fun v hv => .inr (.inr hv), ?_, ?_, ?_⟩
    · exact fun _ _ _ => nofun
    · exact fun _ _ => .inl trivial
    · exact fun v ps hv _ => hold (.inHand hv)
  have hstep := hmet.step hsound hallows hhost
  cases h with
  | inHand hv => exact hstep.inHand v hv
  | leaving hv => exact hstep.leaving v hv
  | waiting hp hv => exact hstep.waiting _ hp v hv
  | bound hv => exact hstep.bound _ _ v hv
  | field hv => exact hstep.fields _ _ v hv

/-- What is on its way out of a call after a step was so before, or is what a `return` gives. -/
lemma leaving_of_step (h : (m.step s).control = .exit (.leaveCall v)) (hhost : s.host.AddsNoCode) :
    (∃ keyword, m.control = .exec (.returnFrom keyword none) ∧ v = .nil) ∨
      (∃ ps, m.control = .value v ∧ m.pending = .giveBack :: ps) ∨
      m.control = .exit (.leaveCall v) := by
  let source (v : Value) : Prop :=
    (∃ keyword, m.control = .exec (.returnFrom keyword none) ∧ v = .nil) ∨
      (∃ ps, m.control = .value v ∧ m.pending = .giveBack :: ps) ∨
      m.control = .exit (.leaveCall v)
  let J : Judgment := ⟨fun _ => True, source, fun _ => True, fun _ => True⟩
  have hsound : J.Sound := by constructor <;> intros <;> trivial
  have hmet : J.Met m := by
    refine ⟨⟨fun _ _ => trivial, fun _ _ _ _ => trivial, fun _ _ _ _ => trivial, trivial⟩,
      fun _ _ => trivial, fun v hv => .inr (.inr hv)⟩
  have hallows : J.Allows m := by
    refine ⟨fun _ _ => trivial, fun _ _ _ => trivial, ?_, ?_⟩
    · exact fun keyword hc => .inl ⟨keyword, hc, rfl⟩
    · exact fun v ps hc hps => .inr (.inl ⟨ps, hc, hps⟩)
  exact (hmet.step hsound hallows hhost).leaving v h

/-- Only a `return` waits for the value that it gives back. -/
lemma giveBack_mem_of_step (h : .giveBack ∈ (m.step s).pending) (hhost : s.host.AddsNoCode) :
    .giveBack ∈ m.pending ∨ ∃ keyword e, m.control = .exec (.returnFrom keyword (some e)) := by
  let source (p : Pending) : Prop := p = .giveBack →
    .giveBack ∈ m.pending ∨ ∃ keyword e, m.control = .exec (.returnFrom keyword (some e))
  let J : Judgment := ⟨fun _ => True, fun _ => True, source, fun _ => True⟩
  have hsound : J.Sound :=
    ⟨fun _ _ => trivial, fun _ _ => trivial, fun p hp _ hback => absurd hback hp,
      fun _ _ _ _ => trivial, fun _ _ => trivial⟩
  have hmet : J.Met m := by
    refine ⟨⟨fun p hp hback => ?_, fun _ _ _ _ => trivial, fun _ _ _ _ => trivial, trivial⟩,
      fun _ _ => trivial, fun _ _ => trivial⟩
    rw [← hback]
    exact .inl hp
  have hallows : J.Allows m := by
    refine ⟨fun _ _ => trivial, ?_, fun _ _ => trivial, fun _ _ _ _ => trivial⟩
    exact fun keyword e hc _ => .inr ⟨keyword, e, hc⟩
  exact (hmet.step hsound hallows hhost).waiting _ h rfl

/-! ### Numbers of classes and objects -/

/-- A step takes no number back. -/
lemma nextOwner_le_step (m : Machine) (hhost : s.host.AddsNoCode) :
    m.world.nextOwner ≤ (m.step s).world.nextOwner := by
  let J : Judgment := ⟨fun _ => True, fun _ => True, fun _ => True, (m.world.nextOwner ≤ ·)⟩
  have hsound : J.Sound :=
    ⟨fun _ _ => trivial, fun _ _ => trivial, fun _ _ _ => trivial, fun _ _ _ _ => trivial,
      fun _ hn => Nat.le_succ_of_le hn⟩
  have hmet : J.Met m := by
    refine ⟨⟨fun _ _ => trivial, fun _ _ _ _ => trivial, fun _ _ _ _ => trivial, ?_⟩,
      fun _ _ => trivial, fun _ _ => trivial⟩
    exact Nat.le_refl _
  have hallows : J.Allows m :=
    ⟨fun _ _ => trivial, fun _ _ _ => trivial, fun _ _ => trivial, fun _ _ _ _ => trivial⟩
  exact (hmet.step hsound hallows hhost).owners

lemma nextOwner_enter {c : Closure} {args : List Value} {site : Token} :
    (m.enter c args site).world.nextOwner = m.world.nextOwner := by
  unfold enter
  split <;> rfl

lemma nextOwner_construct {k : ClassInfo} {args : List Value} {site : Token} :
    (m.construct k args site).world.nextOwner = m.world.nextOwner + 1 := by
  unfold construct
  dsimp only
  split
  · exact World.nextOwner_addOwner _
  · exact nextOwner_enter.trans (World.nextOwner_addOwner _)

/-- A class or an object that is made uses its number up. -/
lemma Creates.owner_lt (h : m.Creates v) (hn : v.owner? = some n) :
    n < (m.step s).world.nextOwner := by
  cases h with
  | function => cases hn
  | method => cases hn
  | classValue hc =>
    cases hn
    unfold step
    rw [hc]
    exact Nat.lt_of_lt_of_eq (Nat.lt_succ_self _) (World.nextOwner_addOwner _).symm
  | object hk =>
    cases hn
    obtain ⟨args, site, ps, hstep⟩ := step_construct (s := s) hk
    rw [hstep, nextOwner_construct]
    exact Nat.lt_succ_self _

/-- The classes and objects that a machine holds have numbers below the next one. -/
def Numbered (m : Machine) : Prop :=
  ∀ v n, m.Holds v → v.owner? = some n → n < m.world.nextOwner

theorem Numbered.step (h : m.Numbered) (hhost : s.host.AddsNoCode) : (m.step s).Numbered := by
  intro v n hv hn
  rcases hv.of_step hhost with hplain | hold | hnew
  · cases v with
    | classValue id k => exact hplain.elim
    | object id k => exact hplain.elim
    | _ => cases hn
  · exact lt_of_lt_of_le (h v n hold hn) (nextOwner_le_step m hhost)
  · exact hnew.owner_lt hn

end Machine

end Lox
