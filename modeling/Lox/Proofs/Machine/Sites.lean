import Lox.Proofs.Machine.Faults

/-!
Where the operators, names and parentheses that wait come from.

What waits for a value keeps the operator, name or closing parenthesis of an expression that was
evaluated before. So whatever holds of these tokens in all code that is evaluated holds of those
that wait.
-/

namespace Lox.Machine

variable {P : Token → Prop} {ps : List Pending} {p : Pending} {s : Setting} {m : Machine}
  {v : Value} {c : Closure} {args : List Value} {paren name : Token} {e : Expr}

/-- The tokens at which something that waits may fail have a property. -/
def Sited (P : Token → Prop) (ps : List Pending) : Prop :=
  ∀ p ∈ ps, ∀ t, p.site? = some t → P t

lemma sited_cons : Sited P (p :: ps) ↔ (∀ t, p.site? = some t → P t) ∧ Sited P ps :=
  List.forall_mem_cons

lemma Sited.cons_none (h : Sited P ps) (hp : p.site? = none) : Sited P (p :: ps) := by
  refine sited_cons.mpr ⟨fun t ht => ?_, h⟩
  rw [hp] at ht
  cases ht

lemma Sited.cons_some (h : Sited P ps) {t : Token} (hp : p.site? = some t) (ht : P t) :
    Sited P (p :: ps) := by
  refine sited_cons.mpr ⟨fun u hu => ?_, h⟩
  obtain rfl := Option.some.inj (hp.symm.trans hu)
  exact ht

/-! ### Parts of a step -/

lemma sited_giveFound {found : Option Value} (h : Sited P m.pending) :
    Sited P (m.giveFound name found).pending := by
  cases found <;> exact h

lemma sited_writeIn {holder : Option FrameId} (h : Sited P m.pending) :
    Sited P (m.writeIn holder name v).pending := by
  cases holder <;> exact h

lemma sited_giveResult {r : Except Failure Value} (h : Sited P m.pending) :
    Sited P (m.giveResult r).pending := by
  cases r <;> exact h

lemma sited_leave {env : Env} (h : Sited P m.pending) :
    Sited P (m.leave env c v).pending := by
  unfold leave
  dsimp only
  split
  · split <;> exact h
  · exact h

lemma sited_printLine (h : Sited P m.pending) : Sited P (m.printLine v).pending := by
  unfold printLine
  dsimp only
  split <;> exact h

lemma sited_enter (h : Sited P m.pending) : Sited P (m.enter c args paren).pending := by
  unfold enter
  split
  · exact h
  · exact h.cons_none rfl

lemma sited_construct {k : ClassInfo} (h : Sited P m.pending) :
    Sited P (m.construct k args paren).pending := by
  unfold construct
  dsimp only
  split
  · exact h
  · exact sited_enter (h.cons_none rfl)

lemma sited_call {callee : Value} (h : Sited P m.pending) :
    Sited P (m.call s callee args paren).pending := by
  unfold call
  split
  · exact h
  · split
    · unfold invoke
      split
      · split <;> exact h
      · exact sited_enter h
      · exact sited_construct h
      · exact h
    · exact h

lemma sited_nextArgument {callee : Value} {rest : List Expr} (h : Sited P m.pending)
    (hparen : P paren) : Sited P (m.nextArgument s callee paren args rest).pending := by
  cases rest with
  | nil => exact sited_call h
  | cons e rest => exact h.cons_some rfl hparen

lemma sited_readMember {owner : ℕ} {object : Value} {method? : Option Closure}
    (h : Sited P m.pending) : Sited P (m.readMember owner object method? name).pending := by
  unfold readMember
  split
  · exact h
  · unfold giveMethod
    dsimp only
    split
    · exact sited_enter h
    · exact h
  · exact h

lemma sited_readProperty {object : Value} (h : Sited P m.pending) :
    Sited P (m.readProperty object name).pending := by
  cases object with
  | object => exact sited_readMember h
  | classValue => exact sited_readMember h
  | _ => exact h

lemma sited_takeTarget {object : Value} (h : Sited P m.pending) (hname : P name) :
    Sited P (m.takeTarget object name e).pending := by
  cases object with
  | object => exact h.cons_some rfl hname
  | classValue => exact h.cons_some rfl hname
  | _ => exact h

/-! ### Whole steps -/

lemma sited_evalStep (h : Sited P m.pending) (he : ∀ t, e.site? = some t → P t) :
    Sited P (m.evalStep s e).pending := by
  cases e with
  | literal l => exact h
  | group e => exact h
  | conditional c t e => exact h.cons_none rfl
  | reference id name => exact sited_giveFound h
  | this id keyword => exact sited_giveFound h
  | _ => exact h.cons_some rfl (he _ rfl)

lemma sited_execStep {d : Stmt} (h : Sited P m.pending) : Sited P (m.execStep d).pending := by
  cases d with
  | declare name initial =>
    cases initial with
    | none => exact h
    | some e => exact h.cons_none rfl
  | returnFrom keyword value =>
    cases value with
    | none => exact h
    | some e => exact h.cons_none rfl
  | breakLoop keyword => exact h
  | function d => exact h
  | classDecl name methods statics => exact h
  | _ => exact h.cons_none rfl

lemma sited_receive (h : Sited P (p :: m.pending)) : Sited P (m.receive s p v).pending := by
  obtain ⟨hp, hps⟩ := sited_cons.mp h
  cases p with
  | unary op => exact sited_giveResult hps
  | binaryLeft op right => exact hps.cons_some rfl (hp op rfl)
  | binaryRight left op => exact sited_giveResult hps
  | logical op right =>
    unfold receive
    dsimp only
    split <;> exact hps
  | assign id name => exact sited_writeIn hps
  | callee paren arguments => exact sited_nextArgument hps (hp paren rfl)
  | argument callee paren found rest => exact sited_nextArgument hps (hp paren rfl)
  | property name => exact sited_readProperty hps
  | target name value => exact sited_takeTarget hps (hp name rfl)
  | print => exact sited_printLine hps
  | branch t e =>
    unfold receive
    dsimp only
    split
    · exact hps
    · cases e <;> exact hps
  | loopTest c body =>
    unfold receive
    dsimp only
    split
    · exact hps.cons_none rfl
    · exact hps
  | loopBody c body => exact hps.cons_none rfl
  | leaveCall env c => exact sited_leave hps
  | _ => exact hps

lemma sited_unwind {x : Exit} (h : Sited P m.pending) : Sited P (m.unwind p x).pending := by
  unfold unwind
  split
  · exact h
  · exact h
  · exact sited_leave h
  · exact h
  · exact h

/-- What holds of the operators, names and parentheses that wait holds of those that wait after a
step, if it holds of that of the expression that is evaluated. -/
theorem sited_step (h : Sited P m.pending)
    (he : ∀ e t, m.control = .eval e → e.site? = some t → P t) : Sited P (m.step s).pending := by
  obtain ⟨control, pending, env, depth, w⟩ := m
  cases control with
  | eval e => exact sited_evalStep h fun t => he e t rfl
  | exec d => exact sited_execStep h
  | execAll body =>
    cases body with
    | nil => exact h
    | cons d rest => exact h.cons_none rfl
  | value v =>
    cases pending with
    | nil => exact h
    | cons p ps => exact sited_receive h
  | exit x =>
    cases pending with
    | nil => exact h
    | cons p ps => exact sited_unwind (sited_cons.mp h).2

/-- So it holds of the token at which the next step may fail. -/
lemma Sited.site (h : Sited P m.pending)
    (he : ∀ e t, m.control = .eval e → e.site? = some t → P t) {t : Token}
    (ht : m.site? = some t) : P t := by
  unfold site? at ht
  split at ht
  · rename_i e hc
    exact he e t hc ht
  · rename_i p ps hc hps
    exact h p (hps ▸ List.mem_cons_self ..) t ht
  · cases ht

end Lox.Machine
