import Lox.Proofs.Machine.Succession

/-!
A run with little room for what it prints.

Only printing looks at the room that is left. So a machine with room for a number of bytes goes with
a machine that has any room, step by step, up to the first line that does not fit. From then on it
is on its way out: the failure drops one thing that waits at each step, and nothing catches it.
-/

namespace Lox.Machine

variable {s : Setting} {m : Machine}

/-! ### Another sink -/

/-- The machine with another sink. -/
def withSink (m : Machine) (k : Sink) : Machine :=
  { m with world := { m.world with sink := k } }

section
variable {k : Sink} {v : Value} {c : Closure} {args : List Value} {site name : Token}

lemma withSink_giveResult {r : Except Failure Value} :
    (m.withSink k).giveResult r = (m.giveResult r).withSink k := by
  cases r <;> rfl

lemma withSink_giveFound {found : Option Value} :
    (m.withSink k).giveFound name found = (m.giveFound name found).withSink k := by
  cases found <;> rfl

lemma withSink_writeIn {holder : Option FrameId} :
    (m.withSink k).writeIn holder name v = (m.writeIn holder name v).withSink k := by
  cases holder <;> rfl

lemma withSink_enter : (m.withSink k).enter c args site = (m.enter c args site).withSink k := by
  unfold enter
  by_cases h : maxDepth ≤ m.depth
  · rw [if_pos h]
    exact if_pos h
  · rw [if_neg h]
    exact if_neg h

lemma withSink_leave {env : Env} :
    (m.withSink k).leave env c v = (m.leave env c v).withSink k := by
  unfold leave
  dsimp only [withSink]
  split
  · split <;> rfl
  · rfl

lemma withSink_construct {i : ClassInfo} :
    (m.withSink k).construct i args site = (m.construct i args site).withSink k := by
  unfold construct
  dsimp only
  split
  · rfl
  · exact withSink_enter (m := { (m.change (·.addOwner)).bind (.object m.world.nextOwner i) with
      pending := .construct (.object m.world.nextOwner i) :: m.pending })

lemma withSink_call {callee : Value} :
    (m.withSink k).call s callee args site = (m.call s callee args site).withSink k := by
  unfold call
  split
  · rfl
  · split
    · unfold invoke
      split
      · split <;> rfl
      · exact withSink_enter
      · exact withSink_construct
      · rfl
    · rfl

lemma withSink_nextArgument {callee : Value} {rest : List Expr} :
    (m.withSink k).nextArgument s callee site args rest =
      (m.nextArgument s callee site args rest).withSink k := by
  cases rest with
  | nil => exact withSink_call
  | cons e rest => rfl

lemma withSink_readMember {owner : ℕ} {object : Value} {method? : Option Closure} :
    (m.withSink k).readMember owner object method? name =
      (m.readMember owner object method? name).withSink k := by
  have hfield : (m.withSink k).world.field? owner name.lexeme =
      m.world.field? owner name.lexeme := rfl
  unfold readMember
  rw [hfield]
  split
  · rfl
  · unfold giveMethod
    dsimp only
    split
    · exact withSink_enter (m := m.bind object)
    · rfl
  · rfl

lemma withSink_readProperty {object : Value} :
    (m.withSink k).readProperty object name = (m.readProperty object name).withSink k := by
  cases object <;> first | rfl | exact withSink_readMember

lemma withSink_takeTarget {object : Value} {e : Expr} :
    (m.withSink k).takeTarget object name e = (m.takeTarget object name e).withSink k := by
  cases object <;> rfl

lemma withSink_evalStep {e : Expr} :
    (m.withSink k).evalStep s e = (m.evalStep s e).withSink k := by
  cases e <;> first | rfl | exact withSink_giveFound

lemma withSink_execStep {d : Stmt} : (m.withSink k).execStep d = (m.execStep d).withSink k := by
  cases d with
  | declare name initial => cases initial <;> rfl
  | returnFrom keyword value => cases value <;> rfl
  | _ => rfl

lemma withSink_receive {p : Pending} (hp : p ≠ .print) :
    (m.withSink k).receive s p v = (m.receive s p v).withSink k := by
  cases p with
  | unary op => exact withSink_giveResult
  | binaryRight l op => exact withSink_giveResult
  | logical op r =>
    unfold receive
    dsimp only
    split <;> rfl
  | assign id name => exact withSink_writeIn
  | callee paren arguments => exact withSink_nextArgument
  | argument callee paren found rest => exact withSink_nextArgument
  | property name => exact withSink_readProperty
  | target name value => exact withSink_takeTarget
  | print => exact absurd rfl hp
  | branch t e =>
    unfold receive
    dsimp only
    split
    · rfl
    · cases e <;> rfl
  | loopTest c body =>
    unfold receive
    dsimp only
    split <;> rfl
  | leaveCall env c => exact withSink_leave (m := m) (v := .nil)
  | _ => rfl

lemma withSink_unwind {p : Pending} {x : Exit} :
    (m.withSink k).unwind p x = (m.unwind p x).withSink k := by
  cases p with
  | loopBody c body => cases x <;> rfl
  | leaveCall env c =>
    cases x with
    | leaveCall v => exact withSink_leave
    | _ => rfl
  | _ => rfl

end

/-- A step that does not print is the same whatever the sink. -/
theorem step_withSink (h : ∀ v rest, m.control = .value v → m.pending ≠ .print :: rest)
    (k : Sink) : (m.withSink k).step s = (m.step s).withSink k := by
  obtain ⟨control, pending, env, depth, w⟩ := m
  cases control with
  | eval e => exact withSink_evalStep
  | exec d => exact withSink_execStep
  | execAll body => cases body <;> rfl
  | value v =>
    cases pending with
    | nil => rfl
    | cons p rest =>
      have hp : p ≠ .print := fun hp => h v rest rfl (hp ▸ rfl)
      exact withSink_receive (m := ⟨.value v, rest, env, depth, w⟩) hp
  | exit x =>
    cases pending with
    | nil => rfl
    | cons p rest => exact withSink_unwind (m := ⟨.exit x, rest, env, depth, w⟩)

/-- Either a step prints a line, or it leaves the sink as it is. -/
lemma step_sink (s : Setting) (m : Machine) :
    (∃ v rest, m.control = .value v ∧ m.pending = .print :: rest) ∨
      (∀ k, (m.withSink k).step s = (m.step s).withSink k) ∧
        (m.step s).world.sink = m.world.sink := by
  by_cases h : ∃ v rest, m.control = .value v ∧ m.pending = .print :: rest
  · exact .inl h
  · have hstep : ∀ k, (m.withSink k).step s = (m.step s).withSink k :=
      step_withSink fun v rest hc hp => h ⟨v, rest, hc, hp⟩
    exact .inr ⟨hstep, congrArg (fun m => m.world.sink) (hstep m.world.sink)⟩

/-! ### What waits -/

/-- A step drops at most one thing that waits. -/
lemma length_pending_step (s : Setting) (m : Machine) :
    m.pending.length ≤ (m.step s).pending.length + 1 := by
  by_cases hm : m.isHalted
  · rw [step_of_isHalted s hm]
    exact Nat.le_succ _
  -- one of the things that wait may be looked at; the others are not
  have hstep : ∀ front rest, m.pending = front ++ rest → front.length ≤ 1 →
      ¬({ m with pending := front } : Machine).isHalted →
      m.pending.length ≤ (m.step s).pending.length + 1 := by
    intro front rest hpending hfront hnot
    have honto : m = ({ m with pending := front } : Machine).onto rest := by
      unfold onto
      rw [← hpending]
    rw [honto, step_onto hnot]
    simp only [onto, List.length_append]
    omega
  by_cases hc : m.control.isOutcome
  · cases hp : m.pending with
    | nil => exact Nat.zero_le _
    | cons p rest =>
      rw [← hp]
      exact hstep [p] rest hp (Nat.le_refl 1) fun h => List.cons_ne_nil _ _ (isHalted_iff.mp h).1
  · exact hstep [] m.pending rfl (Nat.zero_le 1) fun h => hc (isHalted_iff.mp h).2

/-- A failure drops what waits, and does nothing else but put back what was current around it. -/
lemma step_of_fail {f : Failure} (h : m.control = .exit (.fail f)) :
    (m.step s).control = .exit (.fail f) ∧ (m.step s).pending = m.pending.tail ∧
      (m.step s).world = m.world := by
  obtain ⟨control, pending, env, depth, w⟩ := m
  cases h
  cases pending with
  | nil => exact ⟨rfl, rfl, rfl⟩
  | cons p rest => cases p <;> exact ⟨rfl, rfl, rfl⟩

/-! ### Two runs -/

/-- A machine that takes any output, and one with room for so many bytes in all. -/
inductive Limited (total : ℕ) : Machine → Machine → Prop
  /-- Everything has fitted so far. -/
  | within {m : Machine} {written : ByteArray} : m.world.sink = ⟨written, none, false⟩ →
      written.size ≤ total →
      Limited total m (m.withSink ⟨written, some (total - written.size), false⟩)
  /-- A line has not fitted, and the second machine is on its way out. -/
  | full {m m' : Machine} {written : ByteArray} : m.world.sink = ⟨written, none, false⟩ →
      total < written.size → m'.control = .exit (.fail (.sink .full)) →
      m'.world.sink = ⟨written.extract 0 total, some 0, false⟩ →
      m'.pending.length ≤ m.pending.length → Limited total m m'

section
variable {a b : ByteArray} {n : ℕ}

lemma extract_of_size_le (h : a.size ≤ n) : a.extract 0 n = a := by
  refine ByteArray.ext_getElem ?_ fun i _ _ => ?_
  · rw [ByteArray.size_extract, Nat.min_eq_right h, Nat.sub_zero]
  · simp only [ByteArray.getElem_extract, Nat.zero_add]

lemma extract_append_of_le (h : n ≤ a.size) : (a ++ b).extract 0 n = a.extract 0 n := by
  rw [ByteArray.extract_append, Nat.sub_eq_zero_of_le h, Nat.zero_sub, ByteArray.extract_same,
    ByteArray.append_empty]

lemma extract_append_of_ge (h : a.size ≤ n) :
    (a ++ b).extract 0 n = a ++ b.extract 0 (n - a.size) := by
  rw [ByteArray.extract_append, Nat.zero_sub, extract_of_size_le h]

end

lemma printLine_eq (m : Machine) (v : Value) : m.printLine v =
    if m.world.sink.hasRoom (v.text ++ "\n").toUTF8.size then
      (m.withSink (m.world.sink.put (v.text ++ "\n").toUTF8)).finish
    else (m.withSink (m.world.sink.put (v.text ++ "\n").toUTF8)).fail (.sink .full) := rfl

/-- Every step goes on with what was printed. -/
lemma sink_step {written : ByteArray} (h : m.world.sink = ⟨written, none, false⟩) :
    ∃ more, (m.step s).world.sink = ⟨written ++ more, none, false⟩ := by
  obtain ⟨v, rest, hc, hp⟩ | ⟨-, hsink⟩ := step_sink s m
  · refine ⟨(v.text ++ "\n").toUTF8, ?_⟩
    rw [step_value hc hp]
    change (printLine _ v).world.sink = _
    rw [printLine_eq, h]
    rfl
  · exact ⟨.empty, by rw [hsink, h, ByteArray.append_empty]⟩

/-- A line is printed by both, or it is the first that does not fit. -/
lemma limited_printLine {total : ℕ} {written : ByteArray}
    (h : m.world.sink = ⟨written, none, false⟩) (hfits : written.size ≤ total) (v : Value) :
    Limited total (m.printLine v)
      ((m.withSink ⟨written, some (total - written.size), false⟩).printLine v) := by
  have hm : m.printLine v =
      (m.withSink ⟨written ++ (v.text ++ "\n").toUTF8, none, false⟩).finish := by
    rw [printLine_eq, h]
    rfl
  rw [hm, printLine_eq]
  generalize (v.text ++ "\n").toUTF8 = line
  have hroom : (m.withSink ⟨written, some (total - written.size), false⟩).world.sink.hasRoom
      line.size = decide (line.size ≤ total - written.size) := rfl
  rw [hroom]
  by_cases hline : line.size ≤ total - written.size
  · have hput : Sink.put ⟨written, some (total - written.size), false⟩ line =
        ⟨written ++ line, some (total - (written ++ line).size), false⟩ := by
      rw [ByteArray.size_append, ← Nat.sub_sub, Sink.put, Nat.min_eq_left hline,
        ByteArray.extract_zero_size]
    rw [if_pos (decide_eq_true hline)]
    change Limited total _
      ((m.withSink (Sink.put ⟨written, some (total - written.size), false⟩ line)).finish)
    rw [hput]
    refine .within (m := (m.withSink ⟨written ++ line, none, false⟩).finish) rfl ?_
    rw [ByteArray.size_append]
    omega
  · have hput : Sink.put ⟨written, some (total - written.size), false⟩ line =
        ⟨(written ++ line).extract 0 total, some 0, false⟩ := by
      have hle : total - written.size ≤ line.size := by omega
      rw [extract_append_of_ge hfits, Sink.put, Nat.min_eq_right hle, Nat.sub_eq_zero_of_le hle]
    rw [if_neg (fun h => hline (of_decide_eq_true h))]
    refine .full rfl ?_ rfl hput (Nat.le_refl _)
    rw [ByteArray.size_append]
    omega

/-- Two runs stay together at every step. -/
theorem Limited.step {total : ℕ} {m' : Machine} (h : Limited total m m') :
    Limited total (m.step s) (m'.step s) := by
  cases h with
  | @within written hsink hfits =>
    obtain ⟨v, rest, hc, hp⟩ | ⟨hstep, hsame⟩ := step_sink s m
    · have hprint := step_value (s := s)
        (m := m.withSink ⟨written, some (total - written.size), false⟩) hc hp
      rw [step_value hc hp, hprint]
      exact limited_printLine (m := { m with pending := rest }) hsink hfits v
    · rw [hstep]
      exact .within (hsame.trans hsink) hfits
  | @full _ written hsink htotal hc hsink' hlength =>
    obtain ⟨hcontrol, hpending, hworld⟩ := step_of_fail (s := s) hc
    obtain ⟨more, hmore⟩ := sink_step (s := s) hsink
    refine .full hmore ?_ hcontrol ?_ ?_
    · rw [ByteArray.size_append]
      omega
    · rw [hworld, hsink', extract_append_of_le (Nat.le_of_lt htotal)]
    · have hstep := length_pending_step s m
      rw [hpending, List.length_tail]
      omega

lemma run_step (s : Setting) (n : ℕ) (m : Machine) : m.run s (n + 1) = (m.step s).run s n := by
  by_cases hm : m.isHalted
  · rw [step_of_isHalted s hm, run_of_isHalted hm, run_of_isHalted hm]
  · exact run_of_not_isHalted hm n

theorem Limited.run {total : ℕ} {m' : Machine} (h : Limited total m m') (n : ℕ) :
    Limited total (m.run s n) (m'.run s n) := by
  induction n generalizing m m' with
  | zero => exact h
  | succ n ih =>
    rw [run_step, run_step]
    exact ih h.step

end Lox.Machine
