import Lox.Proofs.Machine.Preservation

/-!
Every step of the machine keeps the invariant, one construct of the language after another.

The surroundings of a program bring no code of their own: what can be called comes from inputs
alone.
-/

namespace Lox

/-- A value that holds no code. -/
def Value.IsPlain : Value → Prop
  | .function .. => False
  | .classValue .. => False
  | .object .. => False
  | _ => True

namespace Machine

open Scope

/-- The surroundings answer with a plain value or with one of the arguments. -/
def Host.AddsNoCode (host : Host) : Prop :=
  ∀ name args v, host name args = .ok v → v.IsPlain ∨ v ∈ args

variable {x : Scene} {m : Machine} {S : Shape} {env : Env} {s : Setting}

lemma valueOk_of_isPlain {v : Value} (h : v.IsPlain) : ValueOk x v := by
  cases v with
  | function => exact h.elim
  | classValue => exact h.elim
  | object => exact h.elim
  | _ => trivial

lemma isPlain_unary {op : Token} {v w : Value} (h : Operator.unary op v = .ok w) :
    w.IsPlain := by
  unfold Operator.unary at h
  split at h
  · exact Except.ok.inj h ▸ trivial
  · split at h
    · exact Except.ok.inj h ▸ trivial
    · exact nomatch h
  · exact nomatch h

lemma isPlain_onNumbers {op : Token} {l r w : Value} {f : Float → Float → Value}
    (h : Operator.onNumbers op l r f = .ok w) (hf : ∀ a b, (f a b).IsPlain) : w.IsPlain := by
  unfold Operator.onNumbers at h
  split at h
  · exact Except.ok.inj h ▸ hf _ _
  · exact nomatch h

/-- A binary operator makes a plain value, or gives its right operand. -/
lemma binary_eq_ok {op : Token} {l r w : Value} (h : Operator.binary op l r = .ok w) :
    w.IsPlain ∨ w = r := by
  unfold Operator.binary at h
  split at h
  · exact .inr (Except.ok.inj h).symm
  · exact .inl (Except.ok.inj h ▸ trivial)
  · exact .inl (Except.ok.inj h ▸ trivial)
  · left
    unfold Operator.add at h
    split at h
    · exact Except.ok.inj h ▸ trivial
    · exact Except.ok.inj h ▸ trivial
    · exact Except.ok.inj h ▸ trivial
    · exact nomatch h
  · exact .inl (isPlain_onNumbers h fun _ _ => trivial)
  · exact .inl (isPlain_onNumbers h fun _ _ => trivial)
  · left
    unfold Operator.divide at h
    split at h
    · split at h
      · exact nomatch h
      · exact Except.ok.inj h ▸ trivial
    · exact nomatch h
  · exact .inl (isPlain_onNumbers h fun _ _ => trivial)
  · exact .inl (isPlain_onNumbers h fun _ _ => trivial)
  · exact .inl (isPlain_onNumbers h fun _ _ => trivial)
  · exact .inl (isPlain_onNumbers h fun _ _ => trivial)
  · exact nomatch h

namespace Steady

variable {q : Stage}

lemma giveResult (h : Steady x m) {r : Except Failure Value} (hr : ∀ v, r = .ok v → ValueOk x v)
    (hs : Synced x m.env S) (hw : Waits x q m.env S m.pending) : Invariant x (m.giveResult r) := by
  cases r with
  | ok v => exact h.give (hr v rfl) hs hw
  | error f => exact h.fail f hw

/-! ### Calls -/

lemma invoke (h : Steady x m) (hhost : s.host.AddsNoCode) {callee : Value} {args : List Value}
    {paren : Token} (hc : ValueOk x callee) (hargs : ∀ v ∈ args, ValueOk x v)
    (harity : callee.arity? = some args.length) (hs : Synced x m.env S)
    (hw : Waits x .expression m.env S m.pending) : Kept x (m.invoke s callee args paren) := by
  unfold Machine.invoke
  split
  · split
    · rename_i v hv
      refine (h.give ?_ hs hw).kept
      exact (hhost _ _ v hv).elim valueOk_of_isPlain (hargs v)
    · exact (h.fail _ hw).kept
  · exact h.enter hc hargs (Option.some.inj harity).symm hs hw
  · exact h.construct hc hargs (Option.some.inj harity).symm hs hw
  · exact (h.fail _ hw).kept

lemma call (h : Steady x m) (hhost : s.host.AddsNoCode) {callee : Value} {args : List Value}
    {paren : Token} (hc : ValueOk x callee) (hargs : ∀ v ∈ args, ValueOk x v)
    (hs : Synced x m.env S) (hw : Waits x .expression m.env S m.pending) :
    Kept x (m.call s callee args paren) := by
  unfold Machine.call
  split
  · exact (h.fail _ hw).kept
  · rename_i n hn
    split
    · rename_i hlen
      exact h.invoke hhost hc hargs (hlen ▸ hn) hs hw
    · exact (h.fail _ hw).kept

lemma nextArgument (h : Steady x m) (hhost : s.host.AddsNoCode) {callee : Value} {paren : Token}
    {found : List Value} {rest : List Expr}
    (hp : OperandOk x m.env S (.argument callee paren found rest)) (hs : Synced x m.env S)
    (hw : Waits x .expression m.env S m.pending) :
    Kept x (m.nextArgument s callee paren found rest) := by
  obtain ⟨hc, hfound, hrest⟩ := hp
  cases rest with
  | nil => exact h.call hhost hc (fun v hv => hfound v (List.mem_reverse.mp hv)) hs hw
  | cons e rest =>
    obtain ⟨he, hrest⟩ := List.forall_mem_cons.mp hrest
    have hp : OperandOk x m.env S (.argument callee paren found rest) := ⟨hc, hfound, hrest⟩
    exact (h.await he hs (.operand hp hw)).kept

/-- The environment of the caller is put back. -/
lemma leave (h : Steady x m) {env : Env} {c : Closure} {v : Value}
    (henv : env.headD 0 < m.env.headD 0) (hv : ValueOk x v) (hs : Synced x env S)
    (hw : Waits x .expression env S m.pending) : Invariant x (m.leave env c v) := by
  have h' : Steady x { m with env, depth := m.depth - 1 } := ⟨h.world, henv.trans h.head⟩
  unfold Machine.leave
  dsimp only
  split
  · split
    · rename_i this hthis
      exact h'.give (h'.valueOk_getAt? hthis) hs hw
    · exact h'.fail _ hw
  · exact h'.give hv hs hw

/-! ### Properties -/

lemma giveFunction (h : Steady x m) {c : Closure} (hc : ClosureOk x c) (hs : Synced x m.env S)
    (hw : Waits x .expression m.env S m.pending) : Invariant x (m.giveFunction c) :=
  have h' : Steady x (m.change (·.addFunction)) := ⟨h.world.of_eq rfl rfl, h.head⟩
  h'.give (v := .function _ c) hc hs hw

lemma giveMethod (h : Steady x m) {object : Value} {c : Closure} {name : Token}
    (ho : ValueOk x object) (hc : MethodOk x c) (hs : Synced x m.env S)
    (hw : Waits x .expression m.env S m.pending) : Kept x (m.giveMethod object c name) := by
  obtain ⟨y, hsteady, hclosure⟩ := h.bind hc ho
  have hg := h.grows_push y [("this", object)]
  have hs' := hs.mono hg (Nat.lt_succ_self _)
  have hw' := hw.mono hg le_rfl
  refine Kept.of_labels (y := x.push y [("this", object)]) ?_ rfl (List.prefix_append ..)
  unfold Machine.giveMethod
  dsimp only
  split
  · rename_i hgetter
    refine hsteady.enter hclosure nofun ?_ hs' hw'
    have hparams : c.decl.params = none := Option.isNone_iff_eq_none.mp hgetter
    change 0 = (c.decl.params.getD []).length
    rw [hparams]
    rfl
  · exact (hsteady.giveFunction hclosure hs' hw').kept

lemma readMember (h : Steady x m) {owner : ℕ} {object : Value} {method? : Option Closure}
    {name : Token} (ho : ValueOk x object) (hm : ∀ c, method? = some c → MethodOk x c)
    (hs : Synced x m.env S) (hw : Waits x .expression m.env S m.pending) :
    Kept x (m.readMember owner object method? name) := by
  unfold Machine.readMember
  split
  · rename_i hv
    exact (h.give (h.world.fields owner name.lexeme _ hv) hs hw).kept
  · exact h.giveMethod ho (hm _ rfl) hs hw
  · exact (h.fail _ hw).kept

lemma readProperty (h : Steady x m) {object : Value} {name : Token} (ho : ValueOk x object)
    (hs : Synced x m.env S) (hw : Waits x .expression m.env S m.pending) :
    Kept x (m.readProperty object name) := by
  unfold Machine.readProperty
  split
  · exact h.readMember ho (fun c hc => ClassOk.methods ho _ c hc) hs hw
  · exact h.readMember ho (fun c hc => ClassOk.statics ho _ c hc) hs hw
  · exact (h.fail _ hw).kept

lemma takeTarget (h : Steady x m) {object : Value} {name : Token} {e : Expr}
    (he : Placed x m.env S (.expr e)) (hs : Synced x m.env S)
    (hw : Waits x .expression m.env S m.pending) : Invariant x (m.takeTarget object name e) := by
  unfold Machine.takeTarget
  split
  · exact h.await he hs (.operand trivial hw)
  · exact h.await he hs (.operand trivial hw)
  · exact h.fail _ hw

lemma setField (h : Steady x m) {owner : ℕ} {name : Token} {v : Value} (hv : ValueOk x v)
    (hs : Synced x m.env S) (hw : Waits x .expression m.env S m.pending) :
    Invariant x ((m.change (·.setField owner name.lexeme v)).give v) :=
  have h' : Steady x (m.change (·.setField owner name.lexeme v)) :=
    ⟨h.world.setField hv, h.head⟩
  h'.give hv hs hw

/-! ### Declarations -/

lemma declareFunction (h : Steady x m) {d : FunctionDecl}
    (hp : Placed x m.env S (.stmt (.function d))) (hs : Synced x m.env S)
    (hw : Waits x .declaration m.env (S.after (.function d)) m.pending) :
    Kept x (m.declareFunction d) := by
  have h' : Steady x (m.change (·.addFunction)) := ⟨h.world.of_eq rfl rfl, h.head⟩
  refine h'.define hp rfl hs rfl (fun y hg hsync => ?_) hw
  exact ⟨⟨_, _, hp.function.mono hg, hsync.bound⟩, nofun⟩

lemma declareClass (h : Steady x m) {name : Token} {methods statics : List FunctionDecl}
    (hp : Placed x m.env S (.stmt (.classDecl name methods statics))) (hs : Synced x m.env S)
    (hw : Waits x .declaration m.env (S.after (.classDecl name methods statics)) m.pending) :
    Kept x (m.declareClass name methods statics) := by
  have h' : Steady x (m.change (·.addOwner)) := ⟨h.world.addOwner, h.head⟩
  refine h'.define hp rfl hs rfl (fun y hg hsync => ?_) hw
  constructor
  · intro n f hf
    obtain ⟨d, hd, hpair⟩ := List.mem_map.mp (Table.mem_of_get?_ofList hf)
    obtain ⟨-, rfl⟩ := Prod.mk.inj hpair
    obtain ⟨z, hz, hin⟩ := (hp.mono hg).methods
    exact ⟨z, _, _, hz, hin.methods d hd, hsync.bound⟩
  · intro n f hf
    obtain ⟨d, hd, hpair⟩ := List.mem_map.mp (Table.mem_of_get?_ofList hf)
    obtain ⟨-, rfl⟩ := Prod.mk.inj hpair
    have hne : statics.isEmpty = false := List.isEmpty_eq_false_iff.mpr (List.ne_nil_of_mem hd)
    obtain ⟨z, hz, hin⟩ := (hp.mono hg).statics hne
    exact ⟨z, _, _, hz, hin.statics d hd, hsync.bound⟩

lemma printLine (h : Steady x m) {v : Value} (hs : Synced x m.env S)
    (hw : Waits x .statement m.env S m.pending) : Invariant x (m.printLine v) := by
  unfold Machine.printLine
  dsimp only
  split
  · have h' : Steady x (m.change (·.put (v.text ++ "\n").toUTF8)) :=
      ⟨h.world.of_eq rfl rfl, h.head⟩
    exact h'.give trivial hs hw
  · have h' : Steady x (m.change (·.put (v.text ++ "\n").toUTF8)) :=
      ⟨h.world.of_eq rfl rfl, h.head⟩
    exact h'.fail _ hw

end Steady

/-- While a new name waits for its value, the frames agree with what was known before. -/
lemma Synced.waiting {name : String} (hs : Synced x env S)
    (hnew : ∀ l, S[0]? = some l → l name = none) : Synced x env (S.put name false) := by
  cases S with
  | nil => exact ⟨nofun, fun _ _ _ _ hl => nomatch hl⟩
  | cons l S =>
    have hname := hnew l rfl
    constructor
    · intro d k other hk hother
      cases d with
      | zero =>
        obtain rfl : Function.update l name (some false) = k := Option.some.inj hk
        have hne : other ≠ name := by
          rintro rfl
          rw [Function.update_self] at hother
          exact nomatch hother
        rw [Function.update_of_ne hne] at hother
        exact hs.bound 0 l other rfl hother
      | succ d => exact hs.bound (d + 1) k other hk hother
    · intro f k other hf hk hb
      obtain rfl : Function.update l name (some false) = k := Option.some.inj hk
      have hold : l other = some true := hs.only f l other hf rfl hb
      have hne : other ≠ name := by
        rintro rfl
        rw [hname] at hold
        exact nomatch hold
      rwa [Function.update_of_ne hne]

namespace Steady

/-! ### Expressions and statements -/

lemma evalStep (h : Steady x m) {e : Expr} (hp : Placed x m.env S (.expr e))
    (hs : Synced x m.env S) (hw : Waits x .expression m.env S m.pending) :
    Invariant x (m.evalStep s e) := by
  have hpart : ∀ p ∈ e.parts, Placed x m.env S (.expr p) := fun p => hp.part
  cases e with
  | literal l => exact h.give (by cases l <;> trivial) hs hw
  | group e => exact h.eval (hpart _ (by simp [Expr.parts])) hs hw
  | unary op e => exact h.await (hpart _ (by simp [Expr.parts])) hs (.operand trivial hw)
  | binary l op r =>
    have hr : Placed x m.env S (.expr r) := hpart r (by simp [Expr.parts])
    exact h.await (hpart _ (by simp [Expr.parts])) hs (.operand hr hw)
  | logical l op r =>
    have hr : Placed x m.env S (.expr r) := hpart r (by simp [Expr.parts])
    exact h.await (hpart _ (by simp [Expr.parts])) hs (.operand hr hw)
  | conditional c t e =>
    have ht : Placed x m.env S (.expr t) := hpart t (by simp [Expr.parts])
    have he : Placed x m.env S (.expr e) := hpart e (by simp [Expr.parts])
    exact h.await (hpart _ (by simp [Expr.parts])) hs (.operand ⟨ht, he⟩ hw)
  | reference id name => exact h.readVariable s id name hs hw
  | assign id name e =>
    exact h.await (hpart _ (by simp [Expr.parts])) hs (.operand ⟨e, hp⟩ hw)
  | call f paren args =>
    have hargs : ∀ e ∈ args, Placed x m.env S (.expr e) := fun e he =>
      hpart e (by simp [Expr.parts, he])
    exact h.await (hpart _ (by simp [Expr.parts])) hs (.operand hargs hw)
  | property e name => exact h.await (hpart _ (by simp [Expr.parts])) hs (.operand trivial hw)
  | setProperty e name value =>
    have hvalue : Placed x m.env S (.expr value) := hpart value (by simp [Expr.parts])
    exact h.await (hpart _ (by simp [Expr.parts])) hs (.operand hvalue hw)
  | this id keyword => exact h.readVariable s id keyword hs hw

lemma exec (h : Steady x m) {d : Stmt} (hp : Placed x m.env S (.stmt d))
    (hd : d.declared? = none) (hs : Synced x m.env S) (hw : Waits x .statement m.env S m.pending) :
    Invariant x { m with control := .exec d } := by
  refine ⟨⟨h.world, h.head⟩, .exec hp hs ?_⟩
  rw [stageOf, hd, Shape.after_of_declared?_eq_none hd]
  exact hw

lemma execStep (h : Steady x m) {d : Stmt} (hp : Placed x m.env S (.stmt d))
    (hs : Synced x m.env S) (hw : Waits x (stageOf d) m.env (S.after d) m.pending) :
    Kept x (m.execStep d) := by
  cases d with
  | expression e =>
    exact (h.await (hp.head (by simp [Stmt.heads])) hs (.head (p := .discard) trivial hw)).kept
  | print e =>
    exact (h.await (hp.head (by simp [Stmt.heads])) hs (.head (p := .print) trivial hw)).kept
  | declare name initial =>
    cases initial with
    | none => exact h.define hp rfl hs rfl (fun _ _ _ => trivial) hw
    | some e => exact (h.await hp.initial (hs.waiting hp.initial_new) (.initial hp hw)).kept
  | block body => exact h.openBlock hp hs hw
  | branch c t e =>
    have hbranches : StatementOk x m.env S (.branch t e) := fun b hb => hp.branch hb
    exact (h.await (hp.head (by simp [Stmt.heads])) hs (.head hbranches hw)).kept
  | loop c body =>
    have htest : StatementOk x m.env S (.loopTest c body) := hp
    exact (h.await (hp.head (by simp [Stmt.heads])) hs (.head htest hw)).kept
  | breakLoop keyword => exact (h.exit (e := .leaveLoop) trivial hw).kept
  | function d => exact h.declareFunction hp hs hw
  | returnFrom keyword value =>
    cases value with
    | none => exact (h.exit (e := .leaveCall .nil) trivial hw).kept
    | some e => exact (h.await hp.returned hs (.head (p := .giveBack) trivial hw)).kept
  | classDecl name methods statics => exact h.declareClass hp hs hw

/-! ### Values and ways out -/

lemma receiveOperand (h : Steady x m) (hhost : s.host.AddsNoCode) {p : Pending} {v : Value}
    (hp : OperandOk x m.env S p) (hv : ValueOk x v) (hs : Synced x m.env S)
    (hw : Waits x .expression m.env S m.pending) : Kept x (m.receive s p v) := by
  cases p with
  | unary op =>
    refine (h.giveResult (fun w hw => ?_) hs hw).kept
    exact valueOk_of_isPlain (isPlain_unary hw)
  | binaryLeft op right => exact (h.await hp hs (.operand (p := .binaryRight v op) hv hw)).kept
  | binaryRight left op =>
    refine (h.giveResult (fun w hw => ?_) hs hw).kept
    rcases binary_eq_ok hw with hplain | rfl
    · exact valueOk_of_isPlain hplain
    · exact hv
  | logical op right =>
    unfold Machine.receive
    dsimp only
    split
    · exact (h.give hv hs hw).kept
    · exact (h.eval hp hs hw).kept
  | conditional t e =>
    refine (h.eval ?_ hs hw).kept
    split
    · exact hp.1
    · exact hp.2
  | assign id name => exact h.writeVariable s hv hs hw
  | callee paren arguments => exact h.nextArgument hhost ⟨hv, nofun, hp⟩ hs hw
  | argument callee paren found rest =>
    obtain ⟨hc, hfound, hrest⟩ := hp
    exact h.nextArgument hhost ⟨hc, List.forall_mem_cons.mpr ⟨hv, hfound⟩, hrest⟩ hs hw
  | property name => exact h.readProperty hv hs hw
  | target name value => exact (h.takeTarget hp hs hw).kept
  | field owner name => exact (h.setField hv hs hw).kept
  | construct object => exact (h.give hp hs hw).kept
  | _ => exact hp.elim

lemma receiveHead (h : Steady x m) {p : Pending} {v : Value} (hp : StatementOk x m.env S p)
    (hv : ValueOk x v) (hs : Synced x m.env S) (hw : Waits x .statement m.env S m.pending) :
    Invariant x (m.receive s p v) := by
  cases p with
  | discard => exact h.give trivial hs hw
  | print => exact h.printLine hs hw
  | giveBack => exact h.exit hv hw
  | branch t e =>
    unfold Machine.receive
    dsimp only
    split
    · obtain ⟨hplaced, hd⟩ := hp t (List.mem_cons_self ..)
      exact h.exec hplaced hd hs hw
    · split
      · obtain ⟨hplaced, hd⟩ := hp _ (List.mem_cons_of_mem _ (List.mem_singleton_self _))
        exact h.exec hplaced hd hs hw
      · exact h.give trivial hs hw
  | loopTest c body =>
    have hplaced : Placed x m.env S (.stmt (.loop c body)) := hp
    obtain ⟨hbody, hd⟩ := hplaced.branch (List.mem_singleton_self body)
    unfold Machine.receive
    dsimp only
    split
    · have h' : Steady x { m with pending := .loopBody c body :: m.pending } := ⟨h.world, h.head⟩
      exact h'.exec hbody hd hs (.loopBody hplaced hs hw)
    · exact h.give trivial hs hw
  | _ => exact hp.elim

lemma execAll (h : Steady x m) {S' : Shape} {body : List Stmt}
    (hp : Placed x m.env S (.stmts body)) (hs : Synced x m.env S)
    (hw : Waits x .body m.env S' m.pending) : Invariant x { m with control := .execAll body } :=
  ⟨⟨h.world, h.head⟩, .execAll hp hs hw⟩

/-- What waits first gets the value it waited for. -/
lemma receive (h : Steady x m) (hhost : s.host.AddsNoCode) {p : Pending} {v : Value}
    (hv : ValueOk x v) (hs : Synced x m.env S) (hw : Waits x q m.env S (p :: m.pending)) :
    Kept x (m.receive s p v) := by
  obtain ⟨control, ps, env, depth, w⟩ := m
  cases hw with
  | operand hp hw => exact h.receiveOperand hhost hp hv hs hw
  | head hp hw => exact (h.receiveHead hp hv hs hw).kept
  | initial hp hw =>
    exact h.define hp rfl hs (Shape.put_put ..) (fun y hg _ => hv.mono hg) hw
  | @loopBody _ _ c body _ hp _ hw =>
    have htest : StatementOk x env S (.loopTest c body) := hp
    exact (h.await (hp.head (by simp [Stmt.heads])) hs (.head htest hw)).kept
  | ofDeclaration hw =>
    cases hw with
    | sequence hp hw => exact (h.execAll hp hs hw).kept
  | sequence hp hw => exact (h.execAll hp hs hw).kept
  | @leaveBlock _ _ env' _ _ hlt hs' hw =>
    have h' : Steady x ⟨control, ps, env', depth, w⟩ := ⟨h.world, hlt.trans h.head⟩
    exact (h'.give (v := .nil) trivial hs' hw).kept
  | leaveCall hlt hs' _ hw => exact (h.leave (v := .nil) hlt trivial hs' hw).kept

end Steady

/-- At the end of a body its own names do not matter any more. -/
lemma Waits.of_body {S' : Shape} {ps : List Pending} (h : Waits x .body env S ps) :
    Waits x .body env S' ps := by
  cases h with
  | finish => exact .finish
  | leaveBlock hlt hs hw => exact .leaveBlock hlt hs hw
  | leaveCall hlt hs hc hw => exact .leaveCall hlt hs hc hw

/-- Where a declaration may run, so may any statement. -/
lemma Waits.stageOf {d : Stmt} {ps : List Pending} (h : Waits x .declaration env S ps) :
    Waits x (stageOf d) env S ps := by
  unfold Machine.stageOf
  split
  · exact h
  · exact .ofDeclaration h

lemma unwind_of_operandOk {p : Pending} {e : Exit} (hp : OperandOk x env S p) :
    m.unwind p e = m := by
  cases p <;> first | rfl | exact hp.elim

lemma unwind_of_statementOk {p : Pending} {e : Exit} (hp : StatementOk x env S p) :
    m.unwind p e = m := by
  cases p <;> first | rfl | exact hp.elim

namespace Steady

variable {q : Stage}

/-- A way out is stopped by what waits first, or passes on. -/
lemma unwind (h : Steady x m) {p : Pending} {e : Exit} (hc : m.control = .exit e)
    (he : ExitOk x e) (hw : Waits x q m.env S (p :: m.pending)) : Invariant x (m.unwind p e) := by
  obtain ⟨control, ps, env, depth, w⟩ := m
  obtain rfl : control = .exit e := hc
  have hpass : ∀ {q env' S depth'}, env'.headD 0 < x.labels.length → Waits x q env' S ps →
      Invariant x ⟨.exit e, ps, env', depth', w⟩ := fun hlt hw =>
    ⟨⟨h.world, hlt⟩, .exit he hw⟩
  cases hw with
  | operand hp hw =>
    rw [unwind_of_operandOk hp]
    exact hpass h.head hw
  | head hp hw =>
    rw [unwind_of_statementOk hp]
    exact hpass h.head hw
  | initial hp hw => exact hpass h.head hw
  | loopBody hp hs hw =>
    cases e with
    | leaveLoop => exact h.give (v := .nil) trivial hs hw
    | leaveCall v => exact hpass h.head hw
    | fail f => exact hpass h.head hw
  | ofDeclaration hw =>
    cases hw with
    | sequence hp hw => exact hpass h.head hw
  | sequence hp hw => exact hpass h.head hw
  | leaveBlock hlt hs' hw => exact hpass (hlt.trans h.head) hw
  | leaveCall hlt hs' _ hw =>
    cases e with
    | leaveLoop => exact hpass (hlt.trans h.head) hw
    | leaveCall v => exact h.leave hlt he hs' hw
    | fail f => exact hpass (hlt.trans h.head) hw

end Steady

/-- One step keeps the invariant. -/
theorem Invariant.step (h : Invariant x m) (hhost : s.host.AddsNoCode) : Kept x (m.step s) := by
  obtain ⟨hsteady, hruns⟩ := id h
  have hrest : ∀ {control ps}, Steady x { m with control, pending := ps } :=
    ⟨hsteady.world, hsteady.head⟩
  unfold Machine.step
  cases hc : m.control with
  | eval e =>
    rw [hc] at hruns
    cases hruns with
    | eval hp hs hw => exact (hsteady.evalStep hp hs hw).kept
  | exec d =>
    rw [hc] at hruns
    cases hruns with
    | exec hp hs hw => exact hsteady.execStep hp hs hw
  | execAll body =>
    rw [hc] at hruns
    cases hruns with
    | @execAll S _ _ hp hs hw =>
      cases body with
      | nil => exact (hsteady.give (v := .nil) trivial hs hw.of_body).kept
      | cons d rest =>
        have hw' : Waits x .declaration m.env (S.after d) (.sequence rest :: m.pending) :=
          .sequence hp.later hw.of_body
        have hkept : Invariant x (m.await (.sequence rest) (.exec d)) :=
          ⟨hrest, .exec hp.first hs hw'.stageOf⟩
        exact hkept.kept
  | value v =>
    rw [hc] at hruns
    cases hruns with
    | value hv hs hw =>
      cases hps : m.pending with
      | nil => exact h.kept
      | cons p rest =>
        rw [hps] at hw
        exact hrest.receive hhost hv hs hw
  | exit e =>
    rw [hc] at hruns
    cases hruns with
    | exit he hw =>
      cases hps : m.pending with
      | nil => exact h.kept
      | cons p rest =>
        rw [hps] at hw
        exact (hrest.unwind rfl he hw).kept

end Machine

end Lox
