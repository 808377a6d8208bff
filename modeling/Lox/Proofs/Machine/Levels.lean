import Lox.Proofs.Machine.Catching

/-!
Why runs without loops end.

Code has a weight, which bounds the steps that it takes apart from the calls it makes. The calls in
progress divide what waits into levels. A step lightens the innermost level; or it lightens it and
opens a level within, for a call; or it closes the innermost level, for a return. Since calls nest
no deeper than the limit, this cannot go on forever. Only loops are taken up again as heavy as they
were.
-/

namespace Lox

/-! ### Weights -/

mutual

def Expr.weight : Expr → ℕ
  | .literal _ => 1
  | .group e => 1 + e.weight
  | .unary _ e => 2 + e.weight
  | .binary l _ r => 3 + l.weight + r.weight
  | .logical l _ r => 2 + l.weight + r.weight
  | .conditional c t e => 2 + c.weight + t.weight + e.weight
  | .reference .. => 1
  | .assign _ _ value => 2 + value.weight
  | .call callee _ arguments => 3 + callee.weight + Expr.weightEach arguments
  | .property object _ => 2 + object.weight
  | .setProperty object _ value => 3 + object.weight + value.weight
  | .this .. => 1

def Expr.weightEach : List Expr → ℕ
  | [] => 0
  | e :: es => 1 + e.weight + Expr.weightEach es

end

mutual

/-- The weight of a statement. What is in functions counts only when they are called, and loops are
not accounted for. -/
def Stmt.weight : Stmt → ℕ
  | .expression e => 2 + e.weight
  | .print e => 2 + e.weight
  | .declare _ none => 1
  | .declare _ (some e) => 2 + e.weight
  | .block body => 2 + Stmt.weightEach body
  | .branch c t none => 2 + c.weight + t.weight
  | .branch c t (some e) => 2 + c.weight + t.weight + e.weight
  | .loop .. => 1
  | .breakLoop _ => 1
  | .function _ => 1
  | .returnFrom _ none => 1
  | .returnFrom _ (some e) => 2 + e.weight
  | .classDecl .. => 1

def Stmt.weightEach : List Stmt → ℕ
  | [] => 1
  | d :: ds => 2 + d.weight + Stmt.weightEach ds

end

namespace Machine

def Control.weight : Control → ℕ
  | .eval e => e.weight
  | .exec d => d.weight
  | .execAll body => Stmt.weightEach body
  | .value _ => 0
  | .exit _ => 0

/-- Whatever waits is heavier than all that it may become. A call may have to make an object, which
then waits for its initializer. -/
def Pending.weight : Pending → ℕ
  | .binaryLeft _ right => 2 + right.weight
  | .logical _ right => 1 + right.weight
  | .conditional t e => 1 + t.weight + e.weight
  | .callee _ arguments => 2 + Expr.weightEach arguments
  | .argument _ _ _ rest => 2 + Expr.weightEach rest
  | .target _ value => 2 + value.weight
  | .branch t none => 1 + t.weight
  | .branch t (some e) => 1 + t.weight + e.weight
  | .sequence rest => 1 + Stmt.weightEach rest
  | _ => 1

/-! ### Levels -/

/-- Adds to the innermost level. -/
def addTop (n : ℕ) : List ℕ → List ℕ
  | [] => []
  | a :: t => (n + a) :: t

/-- The weight that waits in each of the calls in progress, innermost first, and then outside of
all. -/
def waiting : List Pending → List ℕ
  | [] => [0]
  | p :: ps => if p.isCall then 0 :: waiting ps else addTop p.weight (waiting ps)

/-- The weight of what is in hand and of what waits, level by level. -/
def levels (m : Machine) : List ℕ := addTop m.control.weight (waiting m.pending)

/-- The levels in the first list may follow those in the second: the innermost one has become
lighter, maybe to open one more level, or it has been closed. -/
inductive Below (limit : ℕ) : List ℕ → List ℕ → Prop
  | spend {a a' t} : a' < a → Below limit (a' :: t) (a :: t)
  | call {a a' b t} : a' < a → t.length + 2 ≤ limit → Below limit (b :: a' :: t) (a :: t)
  | close {a t} : Below limit t (a :: t)

/-- A level may be opened above any that is accessible, as long as there is room for levels. -/
lemma acc_cons {limit : ℕ} (k : ℕ) : ∀ t : List ℕ, limit ≤ t.length + k → Acc (Below limit) t →
    ∀ a, Acc (Below limit) (a :: t) := by
  induction k with
  | zero =>
    intro t ht hacc a
    induction a using Nat.strong_induction_on with
    | h a ih =>
      refine .intro _ fun l hl => ?_
      cases hl with
      | spend hlt => exact ih _ hlt
      | call _ hroom => omega
      | close => exact hacc
  | succ k ihk =>
    intro t ht hacc a
    induction a using Nat.strong_induction_on with
    | h a ih =>
      refine .intro _ fun l hl => ?_
      cases hl with
      | spend hlt => exact ih _ hlt
      | call hlt _ =>
        refine ihk _ ?_ (ih _ hlt) _
        rw [List.length_cons]
        omega
      | close => exact hacc

/-- Levels cannot go on below each other forever. -/
theorem wellFounded_below (limit : ℕ) : WellFounded (Below limit) := by
  constructor
  intro l
  induction l with
  | nil => exact .intro _ nofun
  | cons a t ih => exact acc_cons limit t (Nat.le_add_left ..) ih a

/-- The calls in progress are counted, and no more of them than the limit. -/
structure Balanced (m : Machine) : Prop where
  calls : m.pending.countP Pending.isCall = m.depth
  le : m.depth ≤ maxDepth

lemma waiting_eq_cons (ps : List Pending) :
    ∃ a t, waiting ps = a :: t ∧ t.length = ps.countP Pending.isCall := by
  induction ps with
  | nil => exact ⟨0, [], rfl, rfl⟩
  | cons p ps ih =>
    obtain ⟨a, t, h, hlength⟩ := ih
    rw [waiting, List.countP_cons, h]
    split
    · exact ⟨0, a :: t, rfl, congrArg (· + 1) hlength⟩
    · exact ⟨_, t, rfl, hlength⟩

lemma addTop_addTop (n k : ℕ) (l : List ℕ) : addTop n (addTop k l) = addTop (n + k) l := by
  cases l with
  | nil => rfl
  | cons a t => exact congrArg (· :: t) (Nat.add_assoc n k a).symm

lemma addTop_zero (l : List ℕ) : addTop 0 l = l := by
  cases l with
  | nil => rfl
  | cons a t => exact congrArg (· :: t) (Nat.zero_add a)

/-! ### Steps -/

/-- The machine goes on from one where `ps` waits at depth `d`, and has spent some of `c`. -/
def Spends (c : ℕ) (ps : List Pending) (d : ℕ) (n : Machine) : Prop :=
  ps.countP Pending.isCall = d → d ≤ maxDepth →
    Balanced n ∧ Below (maxDepth + 1) n.levels (addTop c (waiting ps))

section
variable {c : ℕ} {m n : Machine} {s : Setting} {p : Pending} {control : Control} {v : Value}
  {name site : Token} {k : Closure} {args : List Value} {ps : List Pending} {d : ℕ}

/-- What waits and the calls in progress stay. -/
lemma spends_same (hp : n.pending = ps) (hd : n.depth = d) (hc : n.control.weight < c) :
    Spends c ps d n := by
  intro hcalls hle
  refine ⟨⟨by rw [hp, hd, hcalls], hd ▸ hle⟩, ?_⟩
  obtain ⟨a, t, ha, -⟩ := waiting_eq_cons ps
  rw [levels, hp, ha]
  exact .spend (Nat.add_lt_add_right hc a)

lemma spends_give (hc : 0 < c) : Spends c m.pending m.depth (m.give v) := spends_same rfl rfl hc

lemma spends_fail {f : Failure} (hc : 0 < c) : Spends c m.pending m.depth (m.fail f) :=
  spends_same rfl rfl hc

lemma spends_giveFound {found : Option Value} (hc : 0 < c) :
    Spends c m.pending m.depth (m.giveFound name found) := by
  cases found with
  | none => exact spends_fail hc
  | some v => exact spends_give hc

lemma spends_writeIn {holder : Option FrameId} (hc : 0 < c) :
    Spends c m.pending m.depth (m.writeIn holder name v) := by
  cases holder with
  | none => exact spends_fail hc
  | some f => exact spends_same rfl rfl hc

lemma spends_giveResult {r : Except Failure Value} (hc : 0 < c) :
    Spends c m.pending m.depth (m.giveResult r) := by
  cases r with
  | error f => exact spends_fail hc
  | ok v => exact spends_give hc

lemma waiting_cons (hp : ¬p.isCall) (ps : List Pending) :
    waiting (p :: ps) = addTop p.weight (waiting ps) := if_neg hp

/-- One more thing waits, at its own cost. -/
lemma Spends.wait (hp : ¬p.isCall) (h : Spends c (p :: ps) d n) :
    Spends (c + p.weight) ps d n := by
  intro hcalls hle
  have hn := h ((List.countP_cons_of_neg hp).trans hcalls) hle
  rwa [waiting_cons hp, addTop_addTop] at hn

lemma spends_await (hp : ¬p.isCall) (hc : p.weight + control.weight < c) :
    Spends c m.pending m.depth (m.await p control) := by
  obtain ⟨b, rfl⟩ : ∃ b, c = b + p.weight := ⟨c - p.weight, by omega⟩
  have hb : control.weight < b := by omega
  exact Spends.wait hp (spends_same rfl rfl hb)

/-- A call may be as heavy as it likes. -/
lemma spends_enter (hp : m.pending = ps) (hd : m.depth = d) (hc : 0 < c) :
    Spends c ps d (m.enter k args site) := by
  subst hp hd
  unfold enter
  split
  · exact spends_fail hc
  · rename_i hdepth
    intro hcalls hle
    obtain ⟨a, t, ha, hlength⟩ := waiting_eq_cons m.pending
    have hlevels : waiting (.leaveCall m.env k :: m.pending) = 0 :: a :: t := by
      rw [waiting, ha]
      rfl
    refine ⟨⟨?_, Nat.lt_of_not_le hdepth⟩, ?_⟩
    · exact (List.countP_cons_of_pos rfl).trans (congrArg (· + 1) hcalls)
    · rw [levels, hlevels, ha]
      refine .call (Nat.lt_add_of_pos_left hc) ?_
      rw [hlength, hcalls]
      omega

lemma spends_construct {i : ClassInfo} (hc : 1 < c) :
    Spends c m.pending m.depth (m.construct i args site) := by
  unfold construct
  dsimp only
  split
  · exact spends_same rfl rfl (Nat.zero_lt_of_lt hc)
  · obtain ⟨d, rfl⟩ : ∃ d, c = d + 1 := ⟨c - 1, by omega⟩
    have hd : 0 < d := by omega
    exact Spends.wait (p := .construct _) Bool.false_ne_true (spends_enter rfl rfl hd)

lemma spends_call {callee : Value} (hc : 1 < c) :
    Spends c m.pending m.depth (m.call s callee args site) := by
  have hpos : 0 < c := Nat.zero_lt_of_lt hc
  unfold call
  split
  · exact spends_fail hpos
  · split
    · unfold invoke
      split
      · split
        · exact spends_give hpos
        · exact spends_fail hpos
      · exact spends_enter rfl rfl hpos
      · exact spends_construct hc
      · exact spends_fail hpos
    · exact spends_fail hpos

lemma spends_nextArgument {callee : Value} {rest : List Expr}
    (hc : 1 + Expr.weightEach rest < c) :
    Spends c m.pending m.depth (m.nextArgument s callee site args rest) := by
  cases rest with
  | nil => exact spends_call (Nat.lt_of_le_of_lt (Nat.le_add_right ..) hc)
  | cons e rest =>
    refine spends_await Bool.false_ne_true ?_
    simp only [Expr.weightEach, Pending.weight, Control.weight] at hc ⊢
    omega

lemma spends_readMember {owner : ℕ} {object : Value} {method? : Option Closure} (hc : 0 < c) :
    Spends c m.pending m.depth (m.readMember owner object method? name) := by
  unfold readMember
  split
  · exact spends_give hc
  · unfold giveMethod
    dsimp only
    split
    · exact spends_enter rfl rfl hc
    · exact spends_same rfl rfl hc
  · exact spends_fail hc

lemma spends_readProperty {object : Value} (hc : 0 < c) :
    Spends c m.pending m.depth (m.readProperty object name) := by
  cases object with
  | object id i => exact spends_readMember hc
  | classValue id i => exact spends_readMember hc
  | _ => exact spends_fail hc

lemma spends_takeTarget {object : Value} {e : Expr} (hc : 1 + e.weight < c) :
    Spends c m.pending m.depth (m.takeTarget object name e) := by
  have hpos : 0 < c := Nat.zero_lt_of_lt hc
  cases object with
  | object id i => exact spends_await Bool.false_ne_true hc
  | classValue id i => exact spends_await Bool.false_ne_true hc
  | _ => exact spends_fail hpos

lemma spends_printLine (hc : 0 < c) : Spends c m.pending m.depth (m.printLine v) := by
  unfold printLine
  dsimp only
  split
  · exact spends_same rfl rfl hc
  · exact spends_same rfl rfl hc

lemma spends_evalStep (e : Expr) : Spends e.weight m.pending m.depth (m.evalStep s e) := by
  cases e with
  | literal l => exact spends_give Nat.one_pos
  | group e => exact spends_same rfl rfl (Nat.lt_add_of_pos_left Nat.one_pos)
  | reference id name => exact spends_giveFound Nat.one_pos
  | this id keyword => exact spends_giveFound Nat.one_pos
  | _ =>
    refine spends_await Bool.false_ne_true ?_
    simp only [Pending.weight, Control.weight, Expr.weight]
    omega

lemma spends_execStep {d : Stmt} (hd : ∀ c body, d ≠ .loop c body) :
    Spends d.weight m.pending m.depth (m.execStep d) := by
  cases d with
  | declare name initial =>
    cases initial with
    | none => exact spends_same rfl rfl Nat.one_pos
    | some e =>
      refine spends_await Bool.false_ne_true ?_
      simp only [Pending.weight, Control.weight, Stmt.weight]
      omega
  | block body =>
    have hbody : Stmt.weightEach body < 1 + Stmt.weightEach body :=
      Nat.lt_add_of_pos_left Nat.one_pos
    have hopen : Spends (1 + Stmt.weightEach body) (.leaveBlock m.env :: m.pending) m.depth
        (m.openBlock body) := spends_same rfl rfl hbody
    have hspent := hopen.wait (p := .leaveBlock m.env) Bool.false_ne_true
    rwa [Nat.add_right_comm] at hspent
  | branch t b e =>
    refine spends_await Bool.false_ne_true ?_
    cases e <;> simp only [Pending.weight, Control.weight, Stmt.weight] <;> omega
  | loop t body => exact absurd rfl (hd t body)
  | breakLoop keyword => exact spends_same rfl rfl Nat.one_pos
  | function f => exact spends_same rfl rfl Nat.one_pos
  | classDecl name ms ss => exact spends_same rfl rfl Nat.one_pos
  | returnFrom keyword value =>
    cases value with
    | none => exact spends_same rfl rfl Nat.one_pos
    | some e =>
      refine spends_await Bool.false_ne_true ?_
      simp only [Pending.weight, Control.weight, Stmt.weight]
      omega
  | _ =>
    refine spends_await Bool.false_ne_true ?_
    simp only [Pending.weight, Control.weight, Stmt.weight]
    omega

lemma spends_receive (hp : ¬p.isCall) (hl : ∀ c body, p ≠ .loopTest c body ∧ p ≠ .loopBody c body) :
    Spends p.weight m.pending m.depth (m.receive s p v) := by
  cases p with
  | unary op => exact spends_giveResult Nat.one_pos
  | binaryRight l op => exact spends_giveResult Nat.one_pos
  | binaryLeft op r =>
    refine spends_await Bool.false_ne_true ?_
    simp only [Pending.weight, Control.weight]
    omega
  | logical op r =>
    unfold receive
    dsimp only
    split
    · exact spends_give (Nat.lt_of_lt_of_le Nat.one_pos (Nat.le_add_right ..))
    · exact spends_same rfl rfl (Nat.lt_add_of_pos_left Nat.one_pos)
  | conditional t e =>
    refine spends_same rfl rfl ?_
    by_cases hv : v.isTruthy <;> simp only [receive, hv, Pending.weight, Control.weight] <;> grind
  | assign id name => exact spends_writeIn Nat.one_pos
  | callee paren args => exact spends_nextArgument (by simp only [Pending.weight]; omega)
  | argument callee paren found rest =>
    exact spends_nextArgument (by simp only [Pending.weight]; omega)
  | property name => exact spends_readProperty Nat.one_pos
  | target name value => exact spends_takeTarget (by simp only [Pending.weight]; omega)
  | print => exact spends_printLine Nat.one_pos
  | branch t e =>
    unfold receive
    dsimp only
    split
    · refine spends_same rfl rfl ?_
      cases e <;> simp only [Pending.weight, Control.weight] <;> omega
    · cases e with
      | none => exact spends_give (Nat.lt_of_lt_of_le Nat.one_pos (Nat.le_add_right ..))
      | some e =>
        refine spends_same rfl rfl ?_
        simp only [Pending.weight, Control.weight]
        omega
  | loopTest c body => exact absurd rfl (hl c body).1
  | loopBody c body => exact absurd rfl (hl c body).2
  | sequence rest => exact spends_same rfl rfl (Nat.lt_add_of_pos_left Nat.one_pos)
  | leaveCall env k => exact absurd rfl hp
  | _ => exact spends_same rfl rfl Nat.one_pos

lemma Pending.weight_pos (p : Pending) : 0 < p.weight := by
  cases p with
  | branch t e => cases e <;> simp only [weight] <;> omega
  | _ => simp only [weight]; omega

lemma spends_unwind {x : Exit} (hp : ¬p.isCall) (hc : m.control = .exit x) :
    Spends p.weight m.pending m.depth (m.unwind p x) := by
  have hpass : Spends p.weight m.pending m.depth m :=
    spends_same rfl rfl (by rw [hc]; exact p.weight_pos)
  cases p with
  | leaveCall env k => exact absurd rfl hp
  | leaveBlock env =>
    refine spends_same rfl rfl ?_
    change m.control.weight < 1
    rw [hc]
    exact Nat.one_pos
  | loopBody c body =>
    cases x with
    | leaveLoop => exact spends_give Nat.one_pos
    | _ => exact hpass
  | _ => exact hpass

/-- A return closes the innermost level. -/
lemma below_of_leaveCall {env : Env} (hp : m.pending = .leaveCall env k :: ps)
    (hn : n.pending = ps) (hd : n.depth = m.depth - 1) (hc : n.control.weight = 0)
    (h : Balanced m) : Balanced n ∧ Below (maxDepth + 1) n.levels m.levels := by
  have hcalls := h.calls
  rw [hp, List.countP_cons_of_pos rfl] at hcalls
  refine ⟨⟨?_, ?_⟩, ?_⟩
  · rw [hn, hd, ← hcalls]
    rfl
  · rw [hd]
    exact (Nat.sub_le ..).trans h.le
  · rw [levels, levels, hc, hn, hp, addTop_zero]
    exact .close

lemma leave_eq (m : Machine) (env : Env) (k : Closure) (v : Value) :
    (m.leave env k v).pending = m.pending ∧ (m.leave env k v).depth = m.depth - 1 ∧
      (m.leave env k v).control.weight = 0 := by
  unfold leave
  dsimp only
  split
  · split <;> exact ⟨rfl, rfl, rfl⟩
  · exact ⟨rfl, rfl, rfl⟩

/-- What waited first is taken off. -/
lemma Balanced.pop (h : Balanced m) (hc : m.control.weight = 0) (hps : m.pending = p :: ps)
    (hp : ¬p.isCall) (hn : Spends p.weight ps m.depth n) :
    Balanced n ∧ Below (maxDepth + 1) n.levels m.levels := by
  have hcalls := h.calls
  rw [hps, List.countP_cons_of_neg hp] at hcalls
  have hlevels : m.levels = addTop p.weight (waiting ps) := by
    rw [levels, hc, hps, waiting_cons hp, addTop_zero]
  exact hlevels ▸ hn hcalls h.le

end

/-- A loop is about to be run, or to be run once more. -/
def AtLoop (m : Machine) : Prop :=
  (∃ c body, m.control = .exec (.loop c body)) ∨
    ∃ c body ps, m.pending = .loopTest c body :: ps ∨ m.pending = .loopBody c body :: ps

lemma Pending.eq_leaveCall {p : Pending} (h : p.isCall) : ∃ env k, p = .leaveCall env k := by
  cases p <;> first | exact ⟨_, _, rfl⟩ | cases h

/-- Apart from loops, each step goes on to levels below. -/
theorem Balanced.step {m : Machine} (h : Balanced m) (s : Setting) (hloop : ¬m.AtLoop)
    (hrun : ¬m.isHalted) :
    Balanced (m.step s) ∧ Below (maxDepth + 1) (m.step s).levels m.levels := by
  obtain ⟨control, pending, env, depth, w⟩ := m
  cases control with
  | eval e => exact @spends_evalStep _ s e h.calls h.le
  | exec d =>
    refine spends_execStep (fun c body hd => ?_) h.calls h.le
    exact hloop (.inl ⟨c, body, congrArg Control.exec hd⟩)
  | execAll body =>
    cases body with
    | nil => exact spends_give Nat.one_pos h.calls h.le
    | cons d ds =>
      refine spends_await Bool.false_ne_true ?_ h.calls h.le
      simp only [Pending.weight, Control.weight, Stmt.weightEach]
      omega
  | value v =>
    cases pending with
    | nil => exact absurd rfl hrun
    | cons p ps =>
      by_cases hcall : p.isCall
      · obtain ⟨env', k, rfl⟩ := p.eq_leaveCall hcall
        obtain ⟨hp, hd, hc⟩ := leave_eq ⟨.value v, ps, env, depth, w⟩ env' k .nil
        exact below_of_leaveCall rfl hp hd hc h
      · have hwaits : ∀ c body, p ≠ .loopTest c body ∧ p ≠ .loopBody c body :=
          fun c body => ⟨fun hp => hloop (.inr ⟨c, body, ps, .inl (hp ▸ rfl)⟩),
            fun hp => hloop (.inr ⟨c, body, ps, .inr (hp ▸ rfl)⟩)⟩
        exact h.pop rfl rfl hcall (@spends_receive ⟨.value v, ps, env, depth, w⟩ s p v hcall hwaits)
  | exit x =>
    cases pending with
    | nil => exact absurd rfl hrun
    | cons p ps =>
      by_cases hcall : p.isCall
      · obtain ⟨env', k, rfl⟩ := p.eq_leaveCall hcall
        cases x with
        | leaveCall v =>
          obtain ⟨hp, hd, hc⟩ := leave_eq ⟨.exit (.leaveCall v), ps, env, depth, w⟩ env' k v
          exact below_of_leaveCall rfl hp hd hc h
        | leaveLoop => exact below_of_leaveCall rfl rfl rfl rfl h
        | fail f => exact below_of_leaveCall rfl rfl rfl rfl h
      · exact h.pop rfl rfl hcall (@spends_unwind ⟨.exit x, ps, env, depth, w⟩ p x hcall rfl)

end Machine

end Lox
