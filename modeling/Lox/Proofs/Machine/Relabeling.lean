import Mathlib.Tactic.Common
import Lox.Machine.Run
import Lox.Proofs.Tables
import Lox.Proofs.Tree.Relabeling

/-!
Runs at other numbers and lines.

The machine uses the number of a node only to look up its distance, and a line only to report a
fault. So with the distances under the new numbers, it does the same at every step.
-/

namespace Lox

variable (r r' : Relabeling)

/-! ### Values -/

def Closure.relabel (c : Closure) : Closure := { c with decl := c.decl.relabel r }

def ClassInfo.relabel (c : ClassInfo) : ClassInfo where
  name := c.name
  methods := c.methods.mapValues (Closure.relabel r)
  statics := c.statics.mapValues (Closure.relabel r)

namespace Value

def relabel : Value → Value
  | nil => nil
  | boolean b => boolean b
  | number x => number x
  | string s => string s
  | native n => native n
  | function id c => function id (c.relabel r)
  | classValue id c => classValue id (c.relabel r)
  | object id c => object id (c.relabel r)

lemma text_relabel (v : Value) : (v.relabel r).text = v.text := by
  cases v with
  | function id c =>
    rw [relabel, text, Closure.name, Closure.relabel, FunctionDecl.name_relabel,
      Token.lexeme_relabel, text, Closure.name]
  | _ => rfl

@[simp] lemma isTruthy_relabel (v : Value) : (v.relabel r).isTruthy = v.isTruthy := by
  cases v <;> rfl

@[simp] lemma equals_relabel (v w : Value) : (v.relabel r).equals (w.relabel r) = v.equals w := by
  cases v <;> cases w <;> rfl

end Value

lemma Closure.arity_relabel (c : Closure) : (c.relabel r).arity = c.arity := c.decl.arity_relabel r

lemma ClassInfo.initializer?_relabel (c : ClassInfo) :
    (c.relabel r).initializer? = c.initializer?.map (Closure.relabel r) := Table.get?_mapValues

@[simp] lemma Value.arity?_relabel (v : Value) : (v.relabel r).arity? = v.arity? := by
  cases v with
  | function id c => exact congrArg some (c.arity_relabel r)
  | classValue id c =>
    refine congrArg some ?_
    rw [ClassInfo.arity, ClassInfo.initializer?_relabel, ClassInfo.arity]
    cases c.initializer? with
    | none => rfl
    | some f => exact f.arity_relabel r
  | _ => rfl

section
variable {r r'}

lemma Closure.relabel_relabel (c : Closure) :
    (c.relabel r).relabel r' = c.relabel (r.andThen r') :=
  congrArg (fun decl => { c with decl }) (Stmt.relabelDecl_relabelDecl c.decl)

lemma ClassInfo.relabel_relabel (c : ClassInfo) :
    (c.relabel r).relabel r' = c.relabel (r.andThen r') := by
  have htable : ∀ t : Table Closure,
      (t.mapValues (Closure.relabel r)).mapValues (Closure.relabel r') =
        t.mapValues (Closure.relabel (r.andThen r')) := fun t =>
    Table.mapValues_mapValues.trans (Table.mapValues_congr fun c => c.relabel_relabel)
  rw [relabel, relabel, htable, htable, relabel]

lemma Value.relabel_relabel (v : Value) : (v.relabel r).relabel r' = v.relabel (r.andThen r') := by
  cases v with
  | function id c => exact congrArg (function id) c.relabel_relabel
  | classValue id c => exact congrArg (classValue id) c.relabel_relabel
  | object id c => exact congrArg (object id) c.relabel_relabel
  | _ => rfl

end

/-! ### Failures -/

def Failure.relabel : Failure → Failure
  | runtime line f => runtime (r.line line) f
  | sink f => sink f

/-- An answer, and so everything that is given or fails, with other numbers and lines. -/
def relabelResult : Except Failure Value → Except Failure Value
  | .ok v => .ok (v.relabel r)
  | .error f => .error (f.relabel r)

namespace Operator

variable {r} (op : Token) (v w : Value)

lemma onNumbers_relabel {f : Float → Float → Value} (hf : ∀ a b, (f a b).relabel r = f a b) :
    onNumbers (op.relabel r) (v.relabel r) (w.relabel r) f =
      relabelResult r (onNumbers op v w f) := by
  cases v <;> cases w <;> first | exact congrArg Except.ok (hf _ _).symm | rfl

lemma divide_relabel :
    divide (op.relabel r) (v.relabel r) (w.relabel r) = relabelResult r (divide op v w) := by
  cases v <;> cases w <;> try rfl
  dsimp only [divide, Value.relabel]
  split <;> rfl

lemma add_relabel :
    add (op.relabel r) (v.relabel r) (w.relabel r) = relabelResult r (add op v w) := by
  have htext : ∀ u : Value, (u.relabel r).text = u.text := fun u => u.text_relabel r
  cases v <;> cases w <;>
    first
    | rfl
    | exact congrArg (fun s => Except.ok (Value.string (_ ++ s))) (htext _)
    | exact congrArg (fun s => Except.ok (Value.string (s ++ _))) (htext _)

lemma unary_relabel :
    unary (op.relabel r) (v.relabel r) = relabelResult r (unary op v) := by
  unfold unary
  rw [Token.kind_relabel]
  split
  · rw [Value.isTruthy_relabel]
    rfl
  · cases v <;> rfl
  · rfl

lemma binary_relabel :
    binary (op.relabel r) (v.relabel r) (w.relabel r) = relabelResult r (binary op v w) := by
  unfold binary
  rw [Token.kind_relabel, Value.equals_relabel]
  split
  case h_4 => exact add_relabel op v w
  case h_7 => exact divide_relabel op v w
  all_goals first | rfl | exact onNumbers_relabel op v w fun _ _ => rfl

@[simp] lemma decides_relabel : decides (op.relabel r) (v.relabel r) = decides op v := by
  rw [decides, Value.isTruthy_relabel, Token.kind_relabel, decides]

end Operator

namespace Machine

/-! ### States -/

def Exit.relabel : Exit → Exit
  | leaveLoop => leaveLoop
  | leaveCall v => leaveCall (v.relabel r)
  | fail f => fail (f.relabel r)

def Control.relabel : Control → Control
  | eval e => eval (e.relabel r)
  | exec s => exec (s.relabel r)
  | execAll body => execAll (body.map (Stmt.relabel r))
  | value v => value (v.relabel r)
  | exit x => exit (x.relabel r)

def Pending.relabel : Pending → Pending
  | unary op => unary (op.relabel r)
  | binaryLeft op right => binaryLeft (op.relabel r) (right.relabel r)
  | binaryRight left op => binaryRight (left.relabel r) (op.relabel r)
  | logical op right => logical (op.relabel r) (right.relabel r)
  | conditional t e => conditional (t.relabel r) (e.relabel r)
  | assign id name => assign (r.node id) (name.relabel r)
  | callee paren arguments => callee (paren.relabel r) (arguments.map (Expr.relabel r))
  | argument f paren found rest => argument (f.relabel r) (paren.relabel r)
      (found.map (Value.relabel r)) (rest.map (Expr.relabel r))
  | property name => property (name.relabel r)
  | target name value => target (name.relabel r) (value.relabel r)
  | field owner name => field owner (name.relabel r)
  | discard => discard
  | print => print
  | declare name => declare (name.relabel r)
  | branch t e => branch (t.relabel r) (e.map (Stmt.relabel r))
  | loopTest c body => loopTest (c.relabel r) (body.relabel r)
  | loopBody c body => loopBody (c.relabel r) (body.relabel r)
  | giveBack => giveBack
  | sequence rest => sequence (rest.map (Stmt.relabel r))
  | leaveBlock env => leaveBlock env
  | leaveCall env c => leaveCall env (c.relabel r)
  | construct object => construct (object.relabel r)

def World.relabel (w : World) : World where
  frames := w.frames.mapValues (Value.relabel r)
  fields := w.fields.map (Table.mapValues (Value.relabel r))
  functions := w.functions
  sink := w.sink

end Machine

def Machine.relabel (m : Machine) : Machine where
  control := m.control.relabel r
  pending := m.pending.map (Machine.Pending.relabel r)
  env := m.env
  depth := m.depth
  world := m.world.relabel r

namespace Machine

/-- The surroundings answer without regard to lines, and tell numbers apart at most. -/
def Host.Uniform (host : Host) : Prop := ∀ r : Relabeling, Function.Injective r.node →
  ∀ name args, host name (args.map (Value.relabel r)) = (host name args).map (Value.relabel r)

variable {r}

/-- The same answers and the same distances, under other numbers and lines. -/
structure Setting.Agrees (r : Relabeling) (s s' : Setting) : Prop where
  host : ∀ name args, s'.host name (args.map (Value.relabel r)) =
    (s.host name args).map (Value.relabel r)
  distances : ∀ i, s'.distances[r.node i]? = s.distances[i]?

variable {s s' : Setting} {m : Machine} {name site : Token} {v : Value} {p : Pending}
  {control : Control} {c : Closure} {args : List Value}

/-! ### Outcomes -/

lemma giveResult_relabel {x : Except Failure Value} :
    (m.relabel r).giveResult (relabelResult r x) = (m.giveResult x).relabel r := by
  cases x <;> rfl

/-! ### Variables -/

lemma giveFound_relabel {found : Option Value} :
    (m.relabel r).giveFound (name.relabel r) (found.map (Value.relabel r)) =
      (m.giveFound name found).relabel r := by
  cases found <;> rfl

lemma readVariable_relabel (h : Setting.Agrees r s s') {id : NodeId} :
    (m.relabel r).readVariable s' (r.node id) (name.relabel r) =
      (m.readVariable s id name).relabel r := by
  unfold readVariable
  rw [← giveFound_relabel, h.distances id]
  cases s.distances[id]? with
  | none => exact congrArg (giveFound _ _) Frames.get?_mapValues
  | some d => exact congrArg (giveFound _ _) Frames.getAt?_mapValues

lemma change_relabel {f f' : World → World} (h : f' (m.world.relabel r) = (f m.world).relabel r) :
    (m.relabel r).change f' = (m.change f).relabel r :=
  congrArg (fun w => { m.relabel r with world := w }) h

lemma write_relabel {w : World} {f : FrameId} {x : String} :
    (w.relabel r).write f x (v.relabel r) = (w.write f x v).relabel r :=
  congrArg (fun frames => { w.relabel r with frames }) Frames.write_mapValues

lemma addFrame_relabel {w : World} {t : Table Value} :
    (w.relabel r).addFrame (t.mapValues (Value.relabel r)) = (w.addFrame t).relabel r :=
  congrArg (fun frames => { w.relabel r with frames }) Frames.push_mapValues

lemma writeIn_relabel {holder : Option FrameId} :
    (m.relabel r).writeIn holder (name.relabel r) (v.relabel r) =
      (m.writeIn holder name v).relabel r := by
  cases holder with
  | none => rfl
  | some f => exact congrArg (give · _) (change_relabel write_relabel)

lemma writeVariable_relabel (h : Setting.Agrees r s s') {id : NodeId} :
    (m.relabel r).writeVariable s' (r.node id) (name.relabel r) (v.relabel r) =
      (m.writeVariable s id name v).relabel r := by
  unfold writeVariable
  rw [← writeIn_relabel, h.distances id]
  cases s.distances[id]? with
  | none => exact congrArg (writeIn _ · _ _) Frames.holder?_mapValues
  | some d => exact congrArg (writeIn _ · _ _) Frames.holderAt?_mapValues

lemma define_relabel :
    (m.relabel r).define (name.relabel r) (v.relabel r) = (m.define name v).relabel r := by
  refine congrArg finish (change_relabel ?_)
  exact congrArg (fun frames => { m.world.relabel r with frames }) Frames.define_mapValues

lemma next_relabel : (m.relabel r).world.frames.next = m.world.frames.next := Frames.next_mapValues

/-! ### Calls -/

lemma parameterFrame_relabel {params : List Token} :
    parameterFrame (params.map (Token.relabel r)) (args.map (Value.relabel r)) =
      (parameterFrame params args).mapValues (Value.relabel r) := by
  rw [parameterFrame, parameterFrame, ← Table.ofList_map, List.zip_map, List.map_map, List.map_map]
  rfl

lemma enter_relabel (args : List Value) :
    (m.relabel r).enter (c.relabel r) (args.map (Value.relabel r)) (site.relabel r) =
      (m.enter c args site).relabel r := by
  unfold enter
  by_cases h : maxDepth ≤ m.depth
  · rw [if_pos h]
    exact if_pos h
  · rw [if_neg h]
    refine (if_neg h).trans ?_
    have hframe : (m.world.relabel r).addFrame
        (parameterFrame (c.relabel r).decl.paramList (args.map (Value.relabel r))) =
          (m.world.addFrame (parameterFrame c.decl.paramList args)).relabel r := by
      rw [← addFrame_relabel, ← parameterFrame_relabel, Closure.relabel,
        FunctionDecl.paramList_relabel]
    have hbody : (c.relabel r).decl.body = c.decl.body.map (Stmt.relabel r) :=
      c.decl.body_relabel r
    rw [hbody, next_relabel]
    exact congrArg (Machine.mk (.execAll (c.decl.body.map (Stmt.relabel r)))
      (.leaveCall m.env (c.relabel r) :: (m.relabel r).pending) (m.world.frames.next :: c.env)
      (m.depth + 1)) hframe

lemma leave_relabel {env : Env} :
    (m.relabel r).leave env (c.relabel r) (v.relabel r) = (m.leave env c v).relabel r := by
  obtain ⟨decl, around, init⟩ := c
  cases init with
  | false => rfl
  | true =>
    have hthis : (m.relabel r).world.frames.getAt? around 0 "this" =
        (m.world.frames.getAt? around 0 "this").map (Value.relabel r) := Frames.getAt?_mapValues
    unfold leave Closure.relabel
    dsimp only
    rw [hthis, FunctionDecl.name_relabel]
    cases m.world.frames.getAt? around 0 "this" <;> rfl

lemma bind_relabel {object : Value} :
    (m.relabel r).bind (object.relabel r) = (m.bind object).relabel r :=
  change_relabel (addFrame_relabel (t := [("this", object)]))

lemma addOwner_relabel : (m.relabel r).change (·.addOwner) = (m.change (·.addOwner)).relabel r := by
  have hpush : (m.world.fields.push []).map (Table.mapValues (Value.relabel r)) =
      (m.world.fields.map (Table.mapValues (Value.relabel r))).push [] := Array.map_push ..
  exact change_relabel (congrArg (fun fields => { m.world.relabel r with fields }) hpush.symm)

lemma nextOwner_relabel : (m.relabel r).world.nextOwner = m.world.nextOwner := Array.size_map ..

lemma within_relabel {f : FrameId} : (c.relabel r).within f = (c.within f).relabel r := rfl

lemma construct_relabel {k : ClassInfo} :
    (m.relabel r).construct (k.relabel r) (args.map (Value.relabel r)) (site.relabel r) =
      (m.construct k args site).relabel r := by
  unfold construct
  dsimp only
  rw [ClassInfo.initializer?_relabel, nextOwner_relabel, addOwner_relabel]
  have hobject : Value.object m.world.nextOwner (k.relabel r) =
      (Value.object m.world.nextOwner k).relabel r := rfl
  rw [hobject]
  cases k.initializer? with
  | none => rfl
  | some f =>
    dsimp only [Option.map_some]
    rw [bind_relabel, next_relabel]
    exact enter_relabel _ (c := f.within (m.change (·.addOwner)).world.frames.next)
      (m := { (m.change (·.addOwner)).bind (.object m.world.nextOwner k) with
        pending := .construct (.object m.world.nextOwner k) :: m.pending })

lemma call_relabel (h : Setting.Agrees r s s') {callee : Value} :
    (m.relabel r).call s' (callee.relabel r) (args.map (Value.relabel r)) (site.relabel r) =
      (m.call s callee args site).relabel r := by
  unfold call
  rw [Value.arity?_relabel, List.length_map]
  cases callee.arity? with
  | none => rfl
  | some n =>
    dsimp only
    split
    · cases callee with
      | native f =>
        dsimp only [invoke, Value.relabel]
        rw [h.host]
        cases s.host f.name args <;> rfl
      | function id c => exact enter_relabel args
      | classValue id c => exact construct_relabel
      | _ => rfl
    · rfl

lemma nextArgument_relabel (h : Setting.Agrees r s s') (args : List Value) {callee : Value}
    {rest : List Expr} :
    (m.relabel r).nextArgument s' (callee.relabel r) (site.relabel r) (args.map (Value.relabel r))
      (rest.map (Expr.relabel r)) = (m.nextArgument s callee site args rest).relabel r := by
  cases rest with
  | nil =>
    refine Eq.trans ?_ (call_relabel h)
    rw [List.map_reverse]
    rfl
  | cons e rest => rfl

/-! ### Properties -/

lemma giveMethod_relabel {object : Value} :
    (m.relabel r).giveMethod (object.relabel r) (c.relabel r) (name.relabel r) =
      (m.giveMethod object c name).relabel r := by
  have hgetter : (c.relabel r).decl.isGetter = c.decl.isGetter := FunctionDecl.isGetter_relabel ..
  unfold giveMethod
  dsimp only
  rw [hgetter, bind_relabel, next_relabel, within_relabel]
  split
  · exact enter_relabel []
  · rfl

lemma field?_relabel {owner : ℕ} {x : String} :
    (m.relabel r).world.field? owner x = (m.world.field? owner x).map (Value.relabel r) := by
  have hfields : (m.relabel r).world.fields[owner]? =
      (m.world.fields[owner]?).map (Table.mapValues (Value.relabel r)) := Array.getElem?_map ..
  unfold World.field?
  rw [hfields]
  cases m.world.fields[owner]? with
  | none => rfl
  | some t => exact Table.get?_mapValues

lemma readMember_relabel {owner : ℕ} {object : Value} {method? : Option Closure} :
    (m.relabel r).readMember owner (object.relabel r) (method?.map (Closure.relabel r))
      (name.relabel r) = (m.readMember owner object method? name).relabel r := by
  unfold readMember
  rw [Token.lexeme_relabel, field?_relabel]
  cases m.world.field? owner name.lexeme with
  | some v => rfl
  | none =>
    cases method? with
    | none => rfl
    | some c => exact giveMethod_relabel

lemma readProperty_relabel :
    (m.relabel r).readProperty (v.relabel r) (name.relabel r) =
      (m.readProperty v name).relabel r := by
  cases v with
  | object id c =>
    refine Eq.trans ?_ readMember_relabel
    exact congrArg (readMember _ _ _ · _) Table.get?_mapValues
  | classValue id c =>
    refine Eq.trans ?_ readMember_relabel
    exact congrArg (readMember _ _ _ · _) Table.get?_mapValues
  | _ => rfl

lemma takeTarget_relabel {value : Expr} :
    (m.relabel r).takeTarget (v.relabel r) (name.relabel r) (value.relabel r) =
      (m.takeTarget v name value).relabel r := by
  cases v <;> rfl

lemma setField_relabel {w : World} {owner : ℕ} {x : String} :
    (w.relabel r).setField owner x (v.relabel r) = (w.setField owner x v).relabel r :=
  congrArg (fun fields => { w.relabel r with fields })
    (modify_map w.fields owner (Table.mapValues (Value.relabel r)) (Table.insert · x v)
      (Table.insert · x (v.relabel r)) fun _ => Table.insert_mapValues)

/-! ### Declarations -/

lemma declareFunction_relabel {d : FunctionDecl} :
    (m.relabel r).declareFunction (d.relabel r) = (m.declareFunction d).relabel r := by
  refine Eq.trans ?_ (define_relabel (m := m.change (·.addFunction))
    (v := .function m.world.functions ⟨d, m.env, false⟩))
  rw [← FunctionDecl.name_relabel]
  rfl

lemma methodTable_relabel {env : Env} {ds : List FunctionDecl} :
    methodTable env (ds.map (FunctionDecl.relabel r)) =
      (methodTable env ds).mapValues (Closure.relabel r) := by
  rw [methodTable, methodTable, ← Table.ofList_map, List.map_map, List.map_map]
  refine congrArg Table.ofList (List.map_congr_left fun d _ => ?_)
  simp [Closure.relabel]

lemma staticTable_relabel {env : Env} {ds : List FunctionDecl} :
    staticTable env (ds.map (FunctionDecl.relabel r)) =
      (staticTable env ds).mapValues (Closure.relabel r) := by
  rw [staticTable, staticTable, ← Table.ofList_map, List.map_map, List.map_map]
  refine congrArg Table.ofList (List.map_congr_left fun d _ => ?_)
  simp [Closure.relabel]

lemma declareClass_relabel {methods statics : List FunctionDecl} :
    (m.relabel r).declareClass (name.relabel r) (methods.map (FunctionDecl.relabel r))
      (statics.map (FunctionDecl.relabel r)) = (m.declareClass name methods statics).relabel r := by
  unfold declareClass
  dsimp only
  rw [methodTable_relabel, staticTable_relabel, nextOwner_relabel, addOwner_relabel]
  exact define_relabel (v := .classValue m.world.nextOwner
    ⟨name.lexeme, methodTable m.env methods, staticTable m.env statics⟩)

/-! ### Statements and expressions -/

lemma printLine_relabel : (m.relabel r).printLine (v.relabel r) = (m.printLine v).relabel r := by
  have hroom : (m.relabel r).world.sink.hasRoom = m.world.sink.hasRoom := rfl
  unfold printLine
  dsimp only
  rw [Value.text_relabel, hroom]
  split <;> rfl

lemma openBlock_relabel {body : List Stmt} :
    (m.relabel r).openBlock (body.map (Stmt.relabel r)) = (m.openBlock body).relabel r := by
  have hframe : (m.world.relabel r).addFrame [] = (m.world.addFrame []).relabel r :=
    addFrame_relabel (t := [])
  unfold openBlock
  rw [next_relabel]
  exact congrArg (Machine.mk (.execAll (body.map (Stmt.relabel r)))
    (.leaveBlock m.env :: (m.relabel r).pending) (m.world.frames.next :: m.env) m.depth) hframe

lemma evalStep_relabel (h : Setting.Agrees r s s') (e : Expr) :
    (m.relabel r).evalStep s' (e.relabel r) = (m.evalStep s e).relabel r := by
  cases e with
  | literal l => cases l <;> rfl
  | reference id name => exact readVariable_relabel h
  | this id keyword => exact readVariable_relabel h
  | call f paren arguments =>
    rw [Expr.relabel, Expr.relabelEach_eq_map]
    rfl
  | _ => rfl

lemma execStep_relabel (d : Stmt) :
    (m.relabel r).execStep (d.relabel r) = (m.execStep d).relabel r := by
  cases d with
  | declare name initial =>
    cases initial with
    | none => exact define_relabel (v := .nil)
    | some e => rfl
  | block body =>
    rw [Stmt.relabel_block]
    exact openBlock_relabel
  | branch c t e =>
    rw [Stmt.relabel_branch]
    rfl
  | function d => exact declareFunction_relabel
  | returnFrom keyword value => cases value <;> rfl
  | classDecl name methods statics =>
    rw [Stmt.relabel_classDecl]
    exact declareClass_relabel
  | _ => rfl

lemma receive_relabel (h : Setting.Agrees r s s') :
    (m.relabel r).receive s' (p.relabel r) (v.relabel r) = (m.receive s p v).relabel r := by
  cases p with
  | unary op => exact (congrArg _ (Operator.unary_relabel op v)).trans giveResult_relabel
  | binaryRight l op => exact (congrArg _ (Operator.binary_relabel op l v)).trans giveResult_relabel
  | logical op e =>
    dsimp only [receive, Pending.relabel]
    rw [Operator.decides_relabel]
    split <;> rfl
  | conditional t e =>
    dsimp only [receive, Pending.relabel]
    rw [Value.isTruthy_relabel]
    cases v.isTruthy <;> rfl
  | assign id name => exact writeVariable_relabel h
  | callee paren arguments => exact nextArgument_relabel h []
  | argument f paren found rest => exact nextArgument_relabel h (v :: found)
  | property name => exact readProperty_relabel
  | target name value => exact takeTarget_relabel
  | field owner name => exact congrArg (give · _) (change_relabel setField_relabel)
  | print => exact printLine_relabel
  | declare name => exact define_relabel
  | branch t e =>
    dsimp only [receive, Pending.relabel]
    rw [Value.isTruthy_relabel]
    cases v.isTruthy <;> cases e <;> rfl
  | loopTest c body =>
    dsimp only [receive, Pending.relabel]
    rw [Value.isTruthy_relabel]
    cases v.isTruthy <;> rfl
  | leaveCall env c => exact leave_relabel (v := .nil)
  | _ => rfl

lemma unwind_relabel (x : Exit) :
    (m.relabel r).unwind (p.relabel r) (x.relabel r) = (m.unwind p x).relabel r := by
  cases p with
  | loopBody c body => cases x <;> rfl
  | leaveCall env c =>
    cases x with
    | leaveCall v => exact leave_relabel
    | _ => rfl
  | _ => cases x <;> rfl

/-- A step does the same at other numbers and lines. -/
theorem step_relabel (h : Setting.Agrees r s s') (m : Machine) :
    (m.relabel r).step s' = (m.step s).relabel r := by
  obtain ⟨control, pending, env, depth, w⟩ := m
  cases control with
  | eval e => exact evalStep_relabel h e
  | exec d => exact execStep_relabel d
  | execAll body => cases body <;> rfl
  | value v =>
    cases pending with
    | nil => rfl
    | cons p rest => exact receive_relabel (m := ⟨.value v, rest, env, depth, w⟩) h
  | exit x =>
    cases pending with
    | nil => rfl
    | cons p rest => exact unwind_relabel (m := ⟨.exit x, rest, env, depth, w⟩) x

/-- A way out that gets to the top level is reported on line zero. -/
lemma failure_relabel (h : r.line 0 = 0) (x : Exit) :
    (x.relabel r).failure = x.failure.relabel r := by
  cases x with
  | fail f => rfl
  | leaveLoop => exact congrArg (Failure.runtime · .strayBreak) h.symm
  | leaveCall v => exact congrArg (Failure.runtime · .strayReturn) h.symm

lemma result?_relabel (h : r.line 0 = 0) (m : Machine) :
    (m.relabel r).result? = m.result?.map (relabelResult r) := by
  obtain ⟨control, pending, env, depth, w⟩ := m
  cases pending with
  | cons p rest => rfl
  | nil =>
    cases control with
    | exit x => exact congrArg (fun f => some (Except.error f)) (failure_relabel h x)
    | _ => rfl

lemma isHalted_relabel (m : Machine) : (m.relabel r).isHalted = m.isHalted := by
  obtain ⟨control, pending, env, depth, w⟩ := m
  cases pending <;> cases control <;> rfl

/-- A run does the same at other numbers and lines. -/
theorem run_relabel (h : Setting.Agrees r s s') (n : ℕ) (m : Machine) :
    (m.relabel r).run s' n = (m.run s n).relabel r := by
  induction n generalizing m with
  | zero => rfl
  | succ n ih =>
    rw [run, run, isHalted_relabel]
    split
    · rfl
    · rw [step_relabel h, ih]

end Machine

end Lox
