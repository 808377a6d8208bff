import Mathlib.Data.Nat.Notation
import Mathlib.Logic.Function.Basic
import Lox.Machine.Run

/-!
What the machine has restored when it comes back.

What is taken up runs on top of what waits, and is blind to it. The ends of blocks and calls that
wait say which environment and which depth of calls will be current again once they have passed;
every step keeps that promise, whether a value or a way out passes them.
-/

namespace Lox.Machine

variable {s : Setting} {m : Machine} {ps : List Pending}

/-! ### Outcomes -/

/-- Whether a value or a way out is in hand. -/
def Control.isOutcome : Control → Bool
  | .value _ => true
  | .exit _ => true
  | _ => false

lemma isHalted_iff : m.isHalted ↔ m.pending = [] ∧ m.control.isOutcome := by
  obtain ⟨control, pending, env, depth, w⟩ := m
  cases pending <;> cases control <;> simp [isHalted, Control.isOutcome]

/-- A value is handed to what waits first. -/
lemma step_value {v : Value} {p : Pending} {rest : List Pending} (hc : m.control = .value v)
    (hp : m.pending = p :: rest) :
    m.step s = ({ m with pending := rest } : Machine).receive s p v := by
  unfold step
  rw [hc]
  dsimp only
  rw [hp]

/-! ### More that waits -/

/-- The machine with more that waits, after all else. -/
def onto (m : Machine) (ps : List Pending) : Machine :=
  { m with pending := m.pending ++ ps }

section
variable {v : Value} {c : Closure} {args : List Value} {site name : Token} {p : Pending}
  {control : Control}

@[simp] lemma give_onto : (m.onto ps).give v = (m.give v).onto ps := rfl

@[simp] lemma fail_onto {f : Failure} : (m.onto ps).fail f = (m.fail f).onto ps := rfl

@[simp] lemma failAt_onto {f : RuntimeFault} :
    (m.onto ps).failAt site f = (m.failAt site f).onto ps := rfl

@[simp] lemma giveResult_onto {r : Except Failure Value} :
    (m.onto ps).giveResult r = (m.giveResult r).onto ps := by
  cases r <;> rfl

@[simp] lemma await_onto : (m.onto ps).await p control = (m.await p control).onto ps := rfl

@[simp] lemma giveFound_onto {found : Option Value} :
    (m.onto ps).giveFound name found = (m.giveFound name found).onto ps := by
  cases found <;> rfl

@[simp] lemma readVariable_onto {id : NodeId} :
    (m.onto ps).readVariable s id name = (m.readVariable s id name).onto ps :=
  giveFound_onto

@[simp] lemma writeIn_onto {holder : Option FrameId} :
    (m.onto ps).writeIn holder name v = (m.writeIn holder name v).onto ps := by
  cases holder <;> rfl

@[simp] lemma writeVariable_onto {id : NodeId} :
    (m.onto ps).writeVariable s id name v = (m.writeVariable s id name v).onto ps :=
  writeIn_onto

@[simp] lemma define_onto : (m.onto ps).define name v = (m.define name v).onto ps := rfl

@[simp] lemma enter_onto : (m.onto ps).enter c args site = (m.enter c args site).onto ps := by
  unfold enter
  by_cases h : maxDepth ≤ m.depth
  · rw [if_pos h]
    exact if_pos h
  · rw [if_neg h]
    exact if_neg h

@[simp] lemma leave_onto {env : Env} : (m.onto ps).leave env c v = (m.leave env c v).onto ps := by
  unfold leave
  dsimp only [onto]
  split
  · split <;> rfl
  · rfl

@[simp] lemma construct_onto {k : ClassInfo} :
    (m.onto ps).construct k args site = (m.construct k args site).onto ps := by
  unfold construct
  dsimp only
  split
  · rfl
  · exact enter_onto (m := { (m.change (·.addOwner)).bind (.object m.world.nextOwner k) with
      pending := .construct (.object m.world.nextOwner k) :: m.pending })

@[simp] lemma call_onto {callee : Value} :
    (m.onto ps).call s callee args site = (m.call s callee args site).onto ps := by
  unfold call
  split
  · rfl
  · split
    · unfold invoke
      split
      · split <;> rfl
      · exact enter_onto
      · exact construct_onto
      · rfl
    · rfl

@[simp] lemma nextArgument_onto {callee : Value} {rest : List Expr} :
    (m.onto ps).nextArgument s callee site args rest =
      (m.nextArgument s callee site args rest).onto ps := by
  cases rest with
  | nil => exact call_onto
  | cons e rest => rfl

@[simp] lemma readMember_onto {owner : ℕ} {object : Value} {method? : Option Closure} :
    (m.onto ps).readMember owner object method? name =
      (m.readMember owner object method? name).onto ps := by
  unfold readMember
  dsimp only [onto]
  split
  · rfl
  · unfold giveMethod
    dsimp only
    split
    · exact enter_onto (m := m.bind object)
    · rfl
  · rfl

@[simp] lemma readProperty_onto {object : Value} :
    (m.onto ps).readProperty object name = (m.readProperty object name).onto ps := by
  cases object <;> first | rfl | exact readMember_onto

@[simp] lemma takeTarget_onto {object : Value} {e : Expr} :
    (m.onto ps).takeTarget object name e = (m.takeTarget object name e).onto ps := by
  cases object <;> rfl

@[simp] lemma printLine_onto : (m.onto ps).printLine v = (m.printLine v).onto ps := by
  unfold printLine
  dsimp only [onto]
  split <;> rfl

lemma evalStep_onto {e : Expr} : (m.onto ps).evalStep s e = (m.evalStep s e).onto ps := by
  cases e <;> first | rfl | exact readVariable_onto

lemma execStep_onto {d : Stmt} : (m.onto ps).execStep d = (m.execStep d).onto ps := by
  cases d with
  | declare name initial => cases initial <;> rfl
  | returnFrom keyword value => cases value <;> rfl
  | _ => rfl

lemma receive_onto : (m.onto ps).receive s p v = (m.receive s p v).onto ps := by
  cases p with
  | unary op => exact giveResult_onto
  | binaryRight l op => exact giveResult_onto
  | logical op r =>
    unfold receive
    dsimp only
    split <;> rfl
  | assign id name => exact writeVariable_onto
  | callee paren arguments => exact nextArgument_onto
  | argument callee paren found rest => exact nextArgument_onto
  | property name => exact readProperty_onto
  | target name value => exact takeTarget_onto
  | print => exact printLine_onto
  | branch t e =>
    unfold receive
    dsimp only
    split
    · rfl
    · cases e <;> rfl
  | loopTest c body =>
    unfold receive
    dsimp only
    split <;> rfl
  | leaveCall env c => exact leave_onto (m := m) (v := .nil)
  | _ => rfl

lemma unwind_onto {x : Exit} : (m.onto ps).unwind p x = (m.unwind p x).onto ps := by
  cases p with
  | loopBody c body => cases x <;> rfl
  | leaveCall env c =>
    cases x with
    | leaveCall v => exact leave_onto
    | _ => rfl
  | _ => rfl

end

/-- A step before the end does not depend on what waits after all else. -/
theorem step_onto (h : ¬m.isHalted) (ps : List Pending) :
    (m.onto ps).step s = (m.step s).onto ps := by
  obtain ⟨control, pending, env, depth, w⟩ := m
  cases control with
  | eval e => exact evalStep_onto
  | exec d => exact execStep_onto
  | execAll body => cases body <;> rfl
  | value v =>
    cases pending with
    | nil => exact absurd rfl h
    | cons p rest => exact receive_onto (m := ⟨.value v, rest, env, depth, w⟩)
  | exit x =>
    cases pending with
    | nil => exact absurd rfl h
    | cons p rest => exact unwind_onto (m := ⟨.exit x, rest, env, depth, w⟩)

/-! ### The way home -/

/-- The environment and the depth of calls that are current once nothing waits any more. -/
def homeFrom : List Pending → Env → ℕ → Env × ℕ
  | [], env, depth => (env, depth)
  | .leaveBlock env :: ps, _, depth => homeFrom ps env depth
  | .leaveCall env _ :: ps, _, depth => homeFrom ps env (depth - 1)
  | _ :: ps, env, depth => homeFrom ps env depth

def home (m : Machine) : Env × ℕ := homeFrom m.pending m.env m.depth

section
variable {v : Value} {c : Closure} {args : List Value} {site name : Token}

lemma home_giveResult {r : Except Failure Value} : (m.giveResult r).home = m.home := by
  cases r <;> rfl

lemma home_giveFound {found : Option Value} : (m.giveFound name found).home = m.home := by
  cases found <;> rfl

lemma home_writeIn {holder : Option FrameId} : (m.writeIn holder name v).home = m.home := by
  cases holder <;> rfl

@[simp] lemma home_enter : (m.enter c args site).home = m.home := by
  unfold enter
  split <;> rfl

lemma home_leave {env : Env} : (m.leave env c v).home = homeFrom m.pending env (m.depth - 1) := by
  unfold leave
  dsimp only
  split
  · split <;> rfl
  · rfl

@[simp] lemma home_construct {k : ClassInfo} : (m.construct k args site).home = m.home := by
  unfold construct
  dsimp only
  split
  · rfl
  · exact home_enter

@[simp] lemma home_call {callee : Value} : (m.call s callee args site).home = m.home := by
  unfold call
  split
  · rfl
  · split
    · unfold invoke
      split
      · split <;> rfl
      · exact home_enter
      · exact home_construct
      · rfl
    · rfl

lemma home_nextArgument {callee : Value} {rest : List Expr} :
    (m.nextArgument s callee site args rest).home = m.home := by
  cases rest with
  | nil => exact home_call
  | cons e rest => rfl

lemma home_readMember {owner : ℕ} {object : Value} {method? : Option Closure} :
    (m.readMember owner object method? name).home = m.home := by
  unfold readMember
  split
  · rfl
  · unfold giveMethod
    dsimp only
    split
    · exact home_enter
    · rfl
  · rfl

@[simp] lemma home_readProperty {object : Value} : (m.readProperty object name).home = m.home := by
  cases object <;> first | rfl | exact home_readMember

lemma home_takeTarget {object : Value} {e : Expr} : (m.takeTarget object name e).home = m.home := by
  cases object <;> rfl

lemma home_printLine : (m.printLine v).home = m.home := by
  unfold printLine
  dsimp only
  split <;> rfl

lemma home_evalStep {e : Expr} : (m.evalStep s e).home = m.home := by
  cases e <;> first | rfl | exact home_giveFound

lemma home_execStep {d : Stmt} : (m.execStep d).home = m.home := by
  cases d with
  | declare name initial => cases initial <;> rfl
  | returnFrom keyword value => cases value <;> rfl
  | _ => rfl

lemma home_receive {p : Pending} :
    (m.receive s p v).home = homeFrom (p :: m.pending) m.env m.depth := by
  cases p with
  | unary op => exact home_giveResult
  | binaryRight l op => exact home_giveResult
  | logical op r =>
    unfold receive
    dsimp only
    split <;> rfl
  | assign id name => exact home_writeIn
  | callee paren arguments => exact home_nextArgument
  | argument callee paren found rest => exact home_nextArgument
  | property name => exact home_readProperty
  | target name value => exact home_takeTarget
  | print => exact home_printLine
  | branch t e =>
    unfold receive
    dsimp only
    split
    · rfl
    · cases e <;> rfl
  | loopTest c body =>
    unfold receive
    dsimp only
    split <;> rfl
  | leaveCall env c => exact home_leave
  | _ => rfl

lemma home_unwind {p : Pending} {x : Exit} :
    (m.unwind p x).home = homeFrom (p :: m.pending) m.env m.depth := by
  cases p with
  | loopBody c body => cases x <;> rfl
  | leaveCall env c =>
    cases x with
    | leaveCall v => exact home_leave
    | _ => rfl
  | _ => rfl

end

/-- Every step keeps the way home. -/
theorem home_step (s : Setting) (m : Machine) : (m.step s).home = m.home := by
  obtain ⟨control, pending, env, depth, w⟩ := m
  cases control with
  | eval e => exact home_evalStep
  | exec d => exact home_execStep
  | execAll body => cases body <;> rfl
  | value v =>
    cases pending with
    | nil => rfl
    | cons p rest => exact home_receive (m := ⟨.value v, rest, env, depth, w⟩)
  | exit x =>
    cases pending with
    | nil => rfl
    | cons p rest => exact home_unwind (m := ⟨.exit x, rest, env, depth, w⟩)

lemma home_eq (h : m.pending = []) : m.home = (m.env, m.depth) := by
  unfold home
  rw [h]
  rfl

/-- From one state the machine goes on until for the first time it comes back to `ps`, with an
outcome in hand. -/
inductive Returns (s : Setting) (ps : List Pending) : Machine → Machine → Prop
  | here {m : Machine} : m.pending = ps → m.control.isOutcome → Returns s ps m m
  | later {m r : Machine} : ¬(m.pending = ps ∧ m.control.isOutcome) → Returns s ps (m.step s) r →
      Returns s ps m r

/-- A run of its own comes back where nothing waits any more. -/
lemma returns_run {n : ℕ} (h : (m.run s n).isHalted) : Returns s [] m (m.run s n) := by
  induction n generalizing m with
  | zero => exact .here (isHalted_iff.mp h).1 (isHalted_iff.mp h).2
  | succ n ih =>
    rw [run] at h ⊢
    split at h <;> rename_i hm
    · rw [if_pos hm]
      exact .here (isHalted_iff.mp hm).1 (isHalted_iff.mp hm).2
    · rw [if_neg hm]
      exact .later (fun hout => hm (isHalted_iff.mpr hout)) (ih h)

lemma onto_eq_iff {m : Machine} : (m.onto ps).pending = ps ↔ m.pending = [] :=
  List.append_left_eq_self

/-- What comes back is what the run above comes to by itself. -/
lemma Returns.of_onto {r : Machine} (h : Returns s ps (m.onto ps) r) :
    ∃ r', r = r'.onto ps ∧ Returns s [] m r' := by
  generalize hm : m.onto ps = n at h
  induction h generalizing m with
  | here hps hc =>
    subst hm
    exact ⟨m, rfl, .here (onto_eq_iff.mp hps) hc⟩
  | later hnot _ ih =>
    subst hm
    have hhalted : ¬(m.pending = [] ∧ m.control.isOutcome) := fun h =>
      hnot ⟨onto_eq_iff.mpr h.1, h.2⟩
    have hstep := step_onto (s := s) (fun h => hhalted (isHalted_iff.mp h)) ps
    obtain ⟨r', rfl, hr'⟩ := ih hstep.symm
    exact ⟨r', rfl, .later hhalted hr'⟩

lemma Returns.home {r : Machine} (h : Returns s ps m r) : r.home = m.home := by
  induction h with
  | here => rfl
  | later _ _ ih => exact ih.trans (home_step s _)

lemma Returns.pending {r : Machine} (h : Returns s ps m r) : r.pending = ps := by
  induction h with
  | here hps => exact hps
  | later _ _ ih => exact ih

/-- The machine comes back with the environment and the depth that the run above promised. -/
lemma Returns.restores {r : Machine} (h : Returns s ps (m.onto ps) r) :
    r.env = m.home.1 ∧ r.depth = m.home.2 := by
  obtain ⟨r', rfl, hr'⟩ := h.of_onto
  have hhome := hr'.home
  rw [home_eq hr'.pending] at hhome
  exact ⟨congrArg Prod.fst hhome, congrArg Prod.snd hhome⟩

/-- What runs by itself comes back to whatever waits below. -/
lemma Returns.above {r : Machine} (h : Returns s [] m r) (ps : List Pending) :
    Returns s ps (m.onto ps) (r.onto ps) := by
  induction h with
  | here hps hc => exact .here (onto_eq_iff.mpr hps) hc
  | @later m r hnot _ ih =>
    have hhalted : ¬m.isHalted := fun h => hnot (isHalted_iff.mp h)
    rw [← step_onto hhalted ps] at ih
    exact .later (fun h => hnot ⟨onto_eq_iff.mp h.1, h.2⟩) ih

/-- Coming back takes a number of steps. -/
lemma Returns.exists_run {r : Machine} (h : Returns s ps m r) : ∃ n, r = m.run s n := by
  induction h with
  | here => exact ⟨0, rfl⟩
  | later _ _ ih =>
    obtain ⟨n, rfl⟩ := ih
    exact ⟨1 + n, by rw [run_add, run_succ]; rfl⟩

lemma Returns.isOutcome {r : Machine} (h : Returns s ps m r) : r.control.isOutcome := by
  induction h with
  | here _ hc => exact hc
  | later _ _ ih => exact ih

/-- A machine that is back comes to no other state. -/
lemma Returns.eq {r : Machine} (h : Returns s ps m r) (hps : m.pending = ps)
    (hc : m.control.isOutcome) : r = m := by
  cases h with
  | here => rfl
  | later hnot => exact absurd ⟨hps, hc⟩ hnot

/-- On its way back the machine comes to all that waits in between. -/
lemma Returns.split {qs : List Pending} {r : Machine} (h : Returns s ps (m.onto qs) r)
    (hlength : ps.length < qs.length) :
    ∃ q, Returns s qs (m.onto qs) q ∧ Returns s ps (q.step s) r := by
  generalize hm : m.onto qs = n at h
  induction h generalizing m with
  | here hps =>
    subst hm
    have hlength' := congrArg List.length hps
    unfold onto at hlength'
    rw [List.length_append] at hlength'
    omega
  | later hnot hrest ih =>
    subst hm
    by_cases hhalted : m.isHalted
    · obtain ⟨hpending, hc⟩ := isHalted_iff.mp hhalted
      exact ⟨_, .here (onto_eq_iff.mpr hpending) hc, hrest⟩
    · have hstep := step_onto (s := s) hhalted qs
      obtain ⟨q, hq, hr⟩ := ih hstep.symm
      have hnot' : ¬((m.onto qs).pending = qs ∧ (m.onto qs).control.isOutcome) := fun h =>
        hhalted (isHalted_iff.mpr ⟨onto_eq_iff.mp h.1, h.2⟩)
      exact ⟨q, .later hnot' (hstep ▸ hq), hr⟩

/-- The ways of taking something up. -/
inductive Enters (s : Setting) (m : Machine) : Machine → Prop
  | eval (e : Expr) : Enters s m { m with control := .eval e }
  | exec (d : Stmt) : Enters s m { m with control := .exec d }
  | execAll (body : List Stmt) : Enters s m { m with control := .execAll body }
  | block (body : List Stmt) : Enters s m (m.openBlock body)
  | call (callee : Value) (args : List Value) (site : Token) :
      Enters s m (m.call s callee args site)
  | function (c : Closure) (args : List Value) (site : Token) :
      Enters s m (m.enter c args site)
  | object (c : ClassInfo) (args : List Value) (site : Token) :
      Enters s m (m.construct c args site)
  | property (object : Value) (name : Token) : Enters s m (m.readProperty object name)

/-- What is taken up does not depend on what waits, and is on its way back to where it started. -/
lemma Enters.of_onto {n : Machine} (h : Enters s (m.onto ps) n) :
    ∃ n' : Machine, n = n'.onto ps ∧ n'.home = m.home := by
  cases h with
  | eval e => exact ⟨{ m with control := .eval e }, rfl, rfl⟩
  | exec d => exact ⟨{ m with control := .exec d }, rfl, rfl⟩
  | execAll body => exact ⟨{ m with control := .execAll body }, rfl, rfl⟩
  | block body => exact ⟨m.openBlock body, rfl, rfl⟩
  | call callee args site => exact ⟨m.call s callee args site, call_onto, home_call⟩
  | function c args site => exact ⟨m.enter c args site, enter_onto, home_enter⟩
  | object c args site => exact ⟨m.construct c args site, construct_onto, home_construct⟩
  | property object name => exact ⟨m.readProperty object name, readProperty_onto, home_readProperty⟩

/-- Whatever is taken up comes back with the environment and the depth of calls that it found, if
it comes back at all. -/
lemma Enters.restores {n r : Machine} (h : Enters s m n) (hr : Returns s m.pending n r) :
    r.env = m.env ∧ r.depth = m.depth := by
  have hm : m = ({ m with pending := [] } : Machine).onto m.pending := rfl
  -- without what waits below, it ends just where it is on its way to
  obtain ⟨n', rfl, hhome⟩ := Enters.of_onto (hm ▸ h)
  have hrestores := hr.restores
  rwa [hhome, home_eq rfl] at hrestores

end Lox.Machine
