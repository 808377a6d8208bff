import Lox.Proofs.Machine.Levels
import Lox.Proofs.Machine.Binding

/-!
Calls in progress, and what one step does to them.

A step attempts a call where a function gets its last argument, where an object with an initializer
is made and where a getter is read. If there is room the function is entered, and else the step
fails. Nothing else enters a function, and nothing else reports that there is no room.
-/

namespace Lox.Machine

/-- The function whose call comes to its end here. -/
def Pending.callee? : Pending → Option Closure
  | .leaveCall _ c => some c
  | _ => none

/-- The functions that are being called, innermost first. -/
def activations (m : Machine) : List Closure := m.pending.filterMap Pending.callee?

/-- The callee, the arguments and the closing parenthesis of the call that the next step makes. -/
def calls? (m : Machine) : Option (Value × List Value × Token) :=
  match m.pending, m.control with
  | .callee paren [] :: _, .value v => some (v, [], paren)
  | .argument callee paren found [] :: _, .value v => some (callee, (v :: found).reverse, paren)
  | _, _ => none

/-- The next step attempts to enter a function, which has as many parameters as there are
arguments. The token is the closing parenthesis of the call, or else the name of the getter. -/
inductive Attempts (m : Machine) : Closure → List Value → Token → Prop
  | function {id c args site} : m.calls? = some (.function id c, args, site) →
      args.length = c.arity → Attempts m c args site
  | initializer {id k c args site} : m.calls? = some (.classValue id k, args, site) →
      args.length = k.arity → k.initializer? = some c →
      Attempts m (c.within m.world.frames.next) args site
  | getter {o c name ps} : m.pending = .property name :: ps → Binds m o c → c.decl.isGetter →
      Attempts m (c.within m.world.frames.next) [] name

/-- The machine reports that there is no room for a call. -/
def Overflows (m : Machine) (line : ℕ) : Prop :=
  m.control = .exit (.fail (.runtime line .stackOverflow))

/-- The second machine goes on from the first without a call. -/
structure Calm (m n : Machine) : Prop where
  activations : n.activations = m.activations
  depth : n.depth = m.depth
  overflows : ∀ line, n.Overflows line → m.Overflows line

/-- What a step may do to the calls in progress. -/
inductive Moves (m n : Machine) : Prop
  | calm : Calm m n → Moves m n
  | attempts {b c args site} : Attempts m c args site → Calm m b → n = b.enter c args site →
      Moves m n
  | leaves {env c ps} : m.pending = .leaveCall env c :: ps → n.pending = ps →
      n.depth = m.depth - 1 → (∀ line, n.Overflows line → m.Overflows line) → Moves m n

variable {s : Setting} {m n b : Machine} {v : Value} {c : Closure} {args : List Value}
  {site name : Token} {p : Pending} {ps : List Pending} {control : Control}

/-! ### Calm steps -/

lemma Calm.refl (m : Machine) : Calm m m := ⟨rfl, rfl, fun _ => id⟩

lemma Calm.trans (h : Calm m n) (h' : Calm n b) : Calm m b where
  activations := h'.activations.trans h.activations
  depth := h'.depth.trans h.depth
  overflows line hb := h.overflows line (h'.overflows line hb)

lemma activations_cons (hp : p.callee? = none) (hm : m.pending = p :: ps) :
    m.activations = ({ m with pending := ps } : Machine).activations := by
  unfold activations
  rw [hm, List.filterMap_cons_none hp]

/-- What waits first and is no call may be taken off. -/
lemma Calm.of_popped (h : Calm { m with pending := ps } n) (hm : m.pending = p :: ps)
    (hp : p.callee? = none) : Calm m n :=
  ⟨h.activations.trans (activations_cons hp hm).symm, h.depth, h.overflows⟩

lemma calm_popped (hm : m.pending = p :: ps) (hp : p.callee? = none) :
    Calm m { m with pending := ps } :=
  (Calm.refl _).of_popped hm hp

lemma calm_of_control (ha : n.activations = m.activations) (hd : n.depth = m.depth)
    (hc : ∀ line, ¬n.Overflows line) : Calm m n :=
  ⟨ha, hd, fun line h => absurd h (hc line)⟩

lemma calm_give : Calm m (m.give v) := calm_of_control rfl rfl fun _ => nofun

lemma calm_fail {f : Failure} (hf : ∀ line, f ≠ .runtime line .stackOverflow) :
    Calm m (m.fail f) :=
  calm_of_control rfl rfl fun line h => hf line (by cases h; rfl)

lemma calm_failAt {f : RuntimeFault} (hf : f ≠ .stackOverflow) : Calm m (m.failAt site f) :=
  calm_fail fun _ h => hf (Failure.runtime.inj h).2

lemma calm_await (hp : p.callee? = none) {e : Expr} : Calm m (m.await p (.eval e)) :=
  calm_of_control (List.filterMap_cons_none hp) rfl fun _ => nofun

lemma calm_giveFound {found : Option Value} : Calm m (m.giveFound name found) := by
  cases found with
  | none => exact calm_failAt nofun
  | some v => exact calm_give

lemma calm_writeIn {holder : Option FrameId} : Calm m (m.writeIn holder name v) := by
  cases holder with
  | none => exact calm_failAt nofun
  | some f => exact calm_of_control rfl rfl fun _ => nofun

lemma calm_giveResult {r : Except Failure Value}
    (hr : ∀ line, r ≠ .error (.runtime line .stackOverflow)) : Calm m (m.giveResult r) := by
  cases r with
  | error f => exact calm_fail fun line hf => hr line (congrArg _ hf)
  | ok v => exact calm_give

/-- Operators have faults of their own. -/
lemma unary_ne_overflow (op : Token) (v : Value) (line : ℕ) :
    Operator.unary op v ≠ .error (.runtime line .stackOverflow) := by
  intro h
  unfold Operator.unary Operator.fault at h
  repeat' split at h
  all_goals cases h

lemma binary_ne_overflow (op : Token) (l r : Value) (line : ℕ) :
    Operator.binary op l r ≠ .error (.runtime line .stackOverflow) := by
  intro h
  unfold Operator.binary Operator.add Operator.divide Operator.onNumbers Operator.fault at h
  repeat' split at h
  all_goals cases h

lemma calm_printLine : Calm m (m.printLine v) := by
  unfold printLine
  dsimp only
  split
  · exact calm_of_control rfl rfl fun _ => nofun
  · exact calm_of_control rfl rfl fun _ => nofun

lemma calm_takeTarget {object : Value} {e : Expr} : Calm m (m.takeTarget object name e) := by
  cases object with
  | object id k => exact calm_await rfl
  | classValue id k => exact calm_await rfl
  | _ => exact calm_failAt nofun

lemma calm_evalStep {e : Expr} : Calm m (m.evalStep s e) := by
  cases e with
  | literal l => exact calm_give
  | group e => exact calm_of_control rfl rfl fun _ => nofun
  | reference id name => exact calm_giveFound
  | this id keyword => exact calm_giveFound
  | _ => exact calm_await rfl

lemma calm_execStep {d : Stmt} : Calm m (m.execStep d) := by
  cases d with
  | declare name initial =>
    cases initial with
    | none => exact calm_of_control rfl rfl fun _ => nofun
    | some e => exact calm_await rfl
  | returnFrom keyword value =>
    cases value with
    | none => exact calm_of_control rfl rfl fun _ => nofun
    | some e => exact calm_await rfl
  | block body => exact calm_of_control rfl rfl fun _ => nofun
  | breakLoop keyword => exact calm_of_control rfl rfl fun _ => nofun
  | function d => exact calm_of_control rfl rfl fun _ => nofun
  | classDecl name ms ss => exact calm_of_control rfl rfl fun _ => nofun
  | _ => exact calm_await rfl

lemma calm_unwind {x : Exit} (hp : p.callee? = none) : Calm m (m.unwind p x) := by
  cases p with
  | loopBody t body =>
    cases x with
    | leaveLoop => exact calm_give
    | _ => exact .refl m
  | leaveCall env c => cases hp
  | leaveBlock env => exact ⟨rfl, rfl, fun _ => id⟩
  | _ => exact .refl m

/-! ### Attempts -/

/-- The call of a function that a step makes. -/
lemma moves_call {callee : Value} (hcalls : m.calls? = some (callee, args, site))
    (hb : Calm m { m with pending := ps }) :
    Moves m (({ m with pending := ps } : Machine).call s callee args site) := by
  unfold call
  split
  · exact .calm (hb.trans (calm_failAt nofun))
  · rename_i arity harity
    split
    · rename_i hlength
      unfold invoke
      split
      · split
        · exact .calm (hb.trans calm_give)
        · exact .calm (hb.trans (calm_failAt nofun))
      · cases harity
        exact .attempts (.function hcalls hlength) hb rfl
      · rename_i id k
        cases harity
        unfold construct
        dsimp only
        split
        · exact .calm (hb.trans (calm_of_control rfl rfl fun _ => nofun))
        · rename_i f hf
          let object := Value.object m.world.nextOwner k
          let made := (({ m with pending := ps } : Machine).change (·.addOwner)).bind object
          have hmade : Calm m { made with pending := .construct object :: made.pending } :=
            hb.trans ⟨rfl, rfl, fun _ h => h⟩
          exact .attempts (.initializer hcalls hlength hf) hmade rfl
      · exact .calm (hb.trans (calm_failAt nofun))
    · exact .calm (hb.trans (calm_failAt nofun))

lemma moves_nextArgument {callee : Value} {found : List Value} {rest : List Expr}
    (hcalls : rest = [] → m.calls? = some (callee, found.reverse, site))
    (hb : Calm m { m with pending := ps }) :
    Moves m (({ m with pending := ps } : Machine).nextArgument s callee site found rest) := by
  cases rest with
  | nil => exact moves_call (hcalls rfl) hb
  | cons e rest => exact .calm (hb.trans (calm_await rfl))

lemma moves_readMember {owner : ℕ} {object : Value} {method? : Option Closure}
    (hm : m.pending = .property name :: ps)
    (hbinds : ∀ c, m.world.field? owner name.lexeme = none → method? = some c →
      Binds m object c) :
    Moves m (({ m with pending := ps } : Machine).readMember owner object method? name) := by
  have hb : Calm m { m with pending := ps } := calm_popped hm rfl
  unfold readMember
  dsimp only
  split
  · exact .calm (hb.trans calm_give)
  · rename_i c hfield
    unfold giveMethod
    dsimp only
    split
    · rename_i hgetter
      have hbound : Calm m (({ m with pending := ps } : Machine).bind object) :=
        hb.trans ⟨rfl, rfl, fun _ h => h⟩
      exact .attempts (.getter hm (hbinds c hfield rfl) hgetter) hbound rfl
    · exact .calm (hb.trans (calm_of_control rfl rfl fun _ => nofun))
  · exact .calm (hb.trans (calm_failAt nofun))

lemma moves_readProperty (hc : m.control = .value v) (hm : m.pending = .property name :: ps) :
    Moves m (({ m with pending := ps } : Machine).readProperty v name) := by
  cases v with
  | object id k => exact moves_readMember hm fun c hfield hk => .method hc hm hfield hk
  | classValue id k => exact moves_readMember hm fun c hfield hk => .static hc hm hfield hk
  | _ => exact .calm ((calm_popped hm rfl).trans (calm_failAt nofun))

lemma leave_moves (env : Env) (v : Value) : (m.leave env c v).pending = m.pending ∧
    (m.leave env c v).depth = m.depth - 1 ∧ ∀ line, ¬(m.leave env c v).Overflows line := by
  unfold leave
  dsimp only
  split
  · split <;> exact ⟨rfl, rfl, fun _ => nofun⟩
  · exact ⟨rfl, rfl, fun _ => nofun⟩

lemma moves_receive (hc : m.control = .value v) (hm : m.pending = p :: ps) :
    Moves m (({ m with pending := ps } : Machine).receive s p v) := by
  have calm : ∀ {n : Machine}, p.callee? = none → Calm { m with pending := ps } n → Moves m n :=
    fun hp h => .calm (h.of_popped hm hp)
  cases p with
  | unary op => exact calm rfl (calm_giveResult (unary_ne_overflow op v))
  | binaryRight l op => exact calm rfl (calm_giveResult (binary_ne_overflow op l v))
  | logical op r =>
    refine calm rfl ?_
    unfold receive
    dsimp only
    split
    · exact calm_give
    · exact calm_of_control rfl rfl fun _ => nofun
  | assign id name => exact calm rfl calm_writeIn
  | callee paren arguments =>
    refine moves_nextArgument ?_ (calm_popped hm rfl)
    rintro rfl
    unfold calls?
    rw [hc, hm]
    rfl
  | argument callee paren found rest =>
    refine moves_nextArgument ?_ (calm_popped hm rfl)
    rintro rfl
    unfold calls?
    rw [hc, hm]
  | property name => exact moves_readProperty hc hm
  | target name value => exact calm rfl calm_takeTarget
  | print => exact calm rfl calm_printLine
  | branch t e =>
    refine calm rfl ?_
    unfold receive
    dsimp only
    split
    · exact calm_of_control rfl rfl fun _ => nofun
    · cases e with
      | none => exact calm_give
      | some e => exact calm_of_control rfl rfl fun _ => nofun
  | loopTest t body =>
    refine calm rfl ?_
    unfold receive
    dsimp only
    split
    · exact calm_of_control rfl rfl fun _ => nofun
    · exact calm_give
  | leaveCall env c =>
    obtain ⟨hps, hdepth, hover⟩ := leave_moves (m := { m with pending := ps }) (c := c) env .nil
    exact .leaves hm hps hdepth fun line h => absurd h (hover line)
  | _ => exact calm rfl (calm_of_control rfl rfl fun _ => nofun)

lemma moves_unwind {x : Exit} (hc : m.control = .exit x) (hm : m.pending = p :: ps) :
    Moves m (({ m with pending := ps } : Machine).unwind p x) := by
  cases hp : p.callee? with
  | none => exact .calm ((calm_unwind hp).of_popped hm hp)
  | some c =>
    cases p with
    | leaveCall env c =>
      cases x with
      | leaveCall v =>
        obtain ⟨hps, hdepth, hover⟩ := leave_moves (m := { m with pending := ps }) (c := c) env v
        exact .leaves hm hps hdepth fun line h => absurd h (hover line)
      | _ => exact .leaves hm rfl rfl fun _ => id
    | _ => cases hp

/-- A step goes on without a call, attempts one, or leaves the innermost one. -/
theorem step_moves (s : Setting) (m : Machine) : Moves m (m.step s) := by
  unfold step
  split
  · exact .calm calm_evalStep
  · exact .calm calm_execStep
  · exact .calm calm_give
  · exact .calm (calm_of_control rfl rfl fun _ => nofun)
  · rename_i v hc
    split
    · exact .calm (.refl m)
    · rename_i p rest hp
      exact moves_receive hc hp
  · rename_i x hc
    split
    · exact .calm (.refl m)
    · rename_i p rest hp
      exact moves_unwind hc hp

/-! ### What becomes of a call -/

/-- Where a call has all its arguments, the step makes it. -/
lemma step_calls {callee : Value} (h : m.calls? = some (callee, args, site)) :
    ∃ p ps, m.pending = p :: ps ∧ p.callee? = none ∧
      m.step s = ({ m with pending := ps } : Machine).call s callee args site := by
  unfold calls? at h
  split at h
  · rename_i paren ps v hm hc
    cases h
    exact ⟨_, ps, hm, rfl, step_value hc hm⟩
  · rename_i callee' paren found ps v hm hc
    cases h
    exact ⟨_, ps, hm, rfl, step_value hc hm⟩
  · cases h

/-- A class that is called with the right number of arguments makes an object. -/
lemma constructs_of_calls {id : ℕ} {k : ClassInfo}
    (h : m.calls? = some (.classValue id k, args, site)) (hlength : args.length = k.arity) :
    m.constructs? = some k := by
  unfold calls? at h
  unfold constructs?
  split at h
  · rename_i hp hc
    cases h
    rw [hp, hc]
    exact if_pos hlength.symm
  · rename_i hp hc
    cases h
    rw [List.length_reverse] at hlength
    rw [hp, hc]
    exact if_pos hlength
  · cases h

lemma call_eq_invoke {callee : Value} (h : callee.arity? = some args.length) :
    m.call s callee args site = m.invoke s callee args site := by
  unfold call
  rw [h]
  exact if_pos rfl

/-- A getter is entered where it is read. -/
lemma readMember_getter {owner : ℕ} {object : Value} (hfield : m.world.field? owner name.lexeme = none)
    (hgetter : c.decl.isGetter) : m.readMember owner object (some c) name =
      (m.bind object).enter (c.within m.world.frames.next) [] name := by
  unfold readMember
  rw [hfield]
  exact if_pos hgetter

/-- Where an object is to be made, its class is called. -/
lemma calls_of_constructs {k : ClassInfo} (h : m.constructs? = some k) :
    ∃ id args site p ps, m.calls? = some (.classValue id k, args, site) ∧
      args.length = k.arity ∧ m.pending = p :: ps := by
  unfold constructs? at h
  unfold calls?
  split at h
  · rename_i paren ps id k' hp hc
    split at h
    · cases h
      rename_i harity
      rw [hp, hc]
      exact ⟨id, [], paren, _, ps, rfl, harity.symm, rfl⟩
    · cases h
  · rename_i id k' paren found ps v hp hc
    split at h
    · cases h
      rename_i harity
      rw [hp, hc]
      refine ⟨id, (v :: found).reverse, paren, _, ps, rfl, ?_, rfl⟩
      rw [List.length_reverse, List.length_cons, harity]
    · cases h
  · cases h

/-- What waits under a call: what waited under its last argument or under the getter, and above that
the object whose initializer is called. -/
inductive Under (m : Machine) (c : Closure) (ps : List Pending) : List Pending → Prop
  | same : Under m c ps ps
  | object {k d} : m.Binds (.object m.world.nextOwner k) d → c = d.within m.world.frames.next →
      Under m c ps (.construct (.object m.world.nextOwner k) :: ps)

/-- A step that attempts a call enters the function, if there is room. -/
lemma Attempts.step (h : m.Attempts c args site) (s : Setting) :
    ∃ b p ps, m.pending = p :: ps ∧ Calm m b ∧ Under m c ps b.pending ∧
      m.step s = b.enter c args site := by
  cases h with
  | function hcalls hlength =>
    obtain ⟨p, ps, hm, hp, hstep⟩ := step_calls (s := s) hcalls
    have hinvoke := hstep.trans (call_eq_invoke (congrArg some hlength.symm))
    exact ⟨_, p, ps, hm, calm_popped hm hp, .same, hinvoke⟩
  | @initializer id k c' _ _ hcalls hlength hinit =>
    obtain ⟨p, ps, hm, hp, hstep⟩ := step_calls (s := s) hcalls
    have harity : (Value.classValue id k).arity? = some args.length := congrArg some hlength.symm
    have hbinds : m.Binds (.object m.world.nextOwner k) c' :=
      .initializer (constructs_of_calls hcalls hlength) hinit
    rw [hstep, call_eq_invoke harity, invoke, construct, hinit]
    let object := Value.object m.world.nextOwner k
    let made := (({ m with pending := ps } : Machine).change (·.addOwner)).bind object
    have hmade : Calm m { made with pending := .construct object :: made.pending } :=
      (calm_popped hm hp).trans ⟨rfl, rfl, fun _ h => h⟩
    exact ⟨_, p, ps, hm, hmade, .object hbinds rfl, rfl⟩
  | @getter o c' _ ps hm hbinds hgetter =>
    have hpopped : Calm m { m with pending := ps } := calm_popped hm rfl
    have hbound : Calm m (({ m with pending := ps } : Machine).bind o) :=
      hpopped.trans ⟨rfl, rfl, fun _ h => h⟩
    refine ⟨_, _, ps, hm, hbound, .same, ?_⟩
    cases hbinds with
    | method hc hm' hfield hmethod =>
      cases hm.symm.trans hm'
      refine (step_value hc hm).trans ?_
      rw [receive, readProperty, hmethod]
      exact readMember_getter hfield hgetter
    | static hc hm' hfield hmethod =>
      cases hm.symm.trans hm'
      refine (step_value hc hm).trans ?_
      rw [receive, readProperty, hmethod]
      exact readMember_getter hfield hgetter
    | initializer hconstructs =>
      unfold constructs? at hconstructs
      rw [hm] at hconstructs
      cases hconstructs

/-- With the greatest number of calls in progress there is no room. -/
lemma enter_of_full (h : maxDepth ≤ b.depth) : (b.enter c args site).Overflows site.line ∧
    (b.enter c args site).activations = b.activations := by
  unfold enter
  rw [if_pos h]
  exact ⟨rfl, rfl⟩

lemma enter_of_room (h : b.depth < maxDepth) :
    (b.enter c args site).control = .execAll c.decl.body ∧
      (b.enter c args site).activations = c :: b.activations ∧
      (b.enter c args site).depth = b.depth + 1 := by
  unfold enter
  rw [if_neg (Nat.not_le_of_lt h)]
  exact ⟨rfl, rfl, rfl⟩

/-- A native function, or a class whose objects have no initializer. -/
def Uncounted : Value → Prop
  | .native _ => True
  | .classValue _ k => k.initializer? = none
  | _ => False

lemma calm_call_uncounted {callee : Value} (h : Uncounted callee) :
    Calm m (m.call s callee args site) := by
  unfold call
  split
  · exact calm_failAt nofun
  · split
    · unfold invoke
      split
      · split
        · exact calm_give
        · exact calm_failAt nofun
      · exact h.elim
      · unfold construct
        rw [show _ = none from h]
        exact calm_of_control rfl rfl fun _ => nofun
      · exact calm_failAt nofun
    · exact calm_failAt nofun

/-! ### The number of calls in progress -/

lemma length_activations (m : Machine) :
    m.activations.length = m.pending.countP Pending.isCall := by
  unfold activations
  induction m.pending with
  | nil => rfl
  | cons p ps ih =>
    cases p with
    | leaveCall env c =>
      rw [List.countP_cons_of_pos rfl, ← ih]
      rfl
    | _ =>
      rw [List.countP_cons_of_neg Bool.false_ne_true, ← ih]
      rfl

lemma balanced_iff : Balanced m ↔
    m.depth = m.activations.length ∧ m.activations.length ≤ maxDepth := by
  rw [length_activations]
  constructor
  · rintro ⟨hcalls, hle⟩
    exact ⟨hcalls.symm, hcalls ▸ hle⟩
  · rintro ⟨hdepth, hle⟩
    exact ⟨hdepth.symm, hdepth ▸ hle⟩

/-- Whatever a step does to the calls in progress, they are counted. -/
theorem Balanced.moves (h : Balanced m) (hmoves : Moves m n) : Balanced n := by
  rw [balanced_iff] at h ⊢
  obtain ⟨hdepth, hle⟩ := h
  cases hmoves with
  | calm hcalm => rwa [hcalm.depth, hcalm.activations, ← hdepth, and_iff_right rfl, hdepth]
  | @attempts b c args site _ hcalm hn =>
    subst hn
    by_cases hroom : b.depth < maxDepth
    · obtain ⟨-, hactivations, hdepth'⟩ := @enter_of_room b c args site hroom
      rw [hactivations, hdepth', hcalm.activations, List.length_cons, hcalm.depth, hdepth]
      refine ⟨rfl, ?_⟩
      rw [hcalm.depth, hdepth] at hroom
      exact hroom
    · unfold enter
      rw [if_pos (Nat.le_of_not_lt hroom)]
      have hb : b.activations = m.activations ∧ b.depth = m.depth :=
        ⟨hcalm.activations, hcalm.depth⟩
      change b.depth = b.activations.length ∧ b.activations.length ≤ maxDepth
      rw [hb.1, hb.2]
      exact ⟨hdepth, hle⟩
  | @leaves env c ps hm hn hdepth' _ =>
    have hlength : m.activations = c :: n.activations := by
      unfold activations
      rw [hm, hn]
      rfl
    rw [hlength, List.length_cons] at hdepth hle
    exact ⟨by rw [hdepth', hdepth, Nat.add_sub_cancel], by omega⟩

end Lox.Machine
