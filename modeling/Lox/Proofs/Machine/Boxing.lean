import Lox.Proofs.Machine.Likeness
import Lox.Proofs.Machine.Invariant
import Lox.Proofs.Scope.BoxedFindings

/-!
Two machines, of which one has some statements in blocks of their own.

A block that was added has a frame in which there are no variables. All other frames go with those
of the first machine one by one, and hold the same variables. The second machine may have to enter
and to leave such blocks while the first one stands still.
-/

namespace Lox

open Scope

namespace Machine

/-- The frames of the second machine that go with those of the first one, in order of creation. -/
abbrev Places := List FrameId

/-- The frames of the environment are found in the other one as far outward as the marks say. -/
def Layered (fs : Places) (marks : List Bool) (env env' : Env) : Prop :=
  ∀ d : ℕ, Option.Rel (fun f f' => fs[f]? = some f') env[d]? env'[outward marks d]?

section
variable {fs fs' : Places} {env env' : Env} {marks : List Bool} {f f' g : FrameId}

lemma place_of_grown (h : fs[f]? = some f') (hfs : fs <+: fs') : fs'[f]? = some f' := by
  obtain ⟨more, rfl⟩ := hfs
  rwa [List.getElem?_append_left (List.getElem?_eq_some_iff.mp h).1]

namespace Layered

lemma mono (h : Layered fs marks env env') (hfs : fs <+: fs') : Layered fs' marks env env' :=
  fun d => Table.rel_mono (fun _ _ hf => place_of_grown hf hfs) (h d)

lemma cons (h : Layered fs marks env env') (hf : fs[f]? = some f') :
    Layered fs (false :: marks) (f :: env) (f' :: env') := by
  intro d
  cases d with
  | zero => exact .some hf
  | succ d => exact h d

/-- Inside a block that was added. -/
lemma added (h : Layered fs marks env env') (g : FrameId) :
    Layered fs (true :: marks) env (g :: env') := h

/-- Where something is declared, the innermost frames go with each other. -/
lemma head (h : Layered fs marks env env') (hm : Firm marks) :
    Option.Rel (fun f f' => fs[f]? = some f') env[0]? env'[0]? := by
  have h0 := h 0
  rwa [outward_zero hm] at h0

end Layered

end

end Machine

open Machine

/-! ### Functions -/

/-- What is the same of two functions, and where their bodies stand. -/
lemma Scope.Node.Boxed.function_inv {P : List Bool → NodeId → NodeId → Prop} {marks : List Bool}
    {sort sort' : Body} {d d' : FunctionDecl}
    (h : Node.Boxed P marks (.function sort d) (.function sort' d')) :
    d'.name = d.name ∧ d'.params = d.params ∧
      Node.Boxed P (false :: marks) (.stmts d.body) (.stmts d'.body) := by
  cases h with
  | body hcode => exact ⟨rfl, rfl, hcode⟩

/-- The second function is the first one with more blocks, in an environment that has frames for
such blocks too. The scopes directly around its code, `outer`, have no frames there. -/
structure Closure.Boxed (P : List Bool → NodeId → NodeId → Prop) (outer : List Bool) (fs : Places)
    (c c' : Closure) : Prop where
  isInitializer : c'.isInitializer = c.isInitializer
  code : ∃ marks sort, Layered fs marks c.env c'.env ∧ Firm (outer ++ marks) ∧
    Node.Boxed P (outer ++ marks) (.function sort c.decl) (.function sort c'.decl)

/-- Methods lack the frame in which they are bound to an object. -/
abbrev Value.Boxed (P : List Bool → NodeId → NodeId → Prop) (fs : Places) : Value → Value → Prop :=
  Value.Like (Closure.Boxed P [] fs) (Closure.Boxed P [false] fs)

section
variable {P : List Bool → NodeId → NodeId → Prop} {outer : List Bool} {fs fs' : Places}

namespace Closure.Boxed

variable {c c' : Closure}

lemma looksLike (h : Closure.Boxed P outer fs c c') : c.LooksLike c' := by
  obtain ⟨marks, sort, -, -, hcode⟩ := h.code
  obtain ⟨hname, hparams, -⟩ := hcode.function_inv
  refine ⟨congrArg (·.lexeme) hname, ?_⟩
  rw [Closure.arity, FunctionDecl.arity, FunctionDecl.paramList, hparams]
  rfl

lemma mono (h : Closure.Boxed P outer fs c c') (hfs : fs <+: fs') :
    Closure.Boxed P outer fs' c c' := by
  obtain ⟨hinit, marks, sort, henv, hm, hcode⟩ := h
  exact ⟨hinit, marks, sort, henv.mono hfs, hm, hcode⟩

/-- With a frame for `this` a method is a function. -/
lemma within (h : Closure.Boxed P [false] fs c c') {f f' : FrameId} (hf : fs[f]? = some f') :
    Closure.Boxed P [] fs (c.within f) (c'.within f') := by
  obtain ⟨hinit, marks, sort, henv, hm, hcode⟩ := h
  exact ⟨hinit, false :: marks, sort, henv.cons hf, hm, hcode⟩

end Closure.Boxed

namespace Value.Boxed

variable {v v' : Value}

lemma mono (h : Value.Boxed P fs v v') (hfs : fs <+: fs') : Value.Boxed P fs' v v' :=
  h.imp (fun _ _ hc => hc.mono hfs) fun _ _ hc => hc.mono hfs

lemma text (h : Value.Boxed P fs v v') : v'.text = v.text :=
  h.text_eq fun _ _ hc => hc.looksLike

lemma arity? (h : Value.Boxed P fs v v') : v'.arity? = v.arity? :=
  h.arity?_eq (fun _ _ hc => hc.looksLike) fun _ _ hc => hc.looksLike

end Value.Boxed

end

namespace Machine

/-! ### States -/

section
variable (P : List Bool → NodeId → NodeId → Prop) (fs : Places)

inductive Exit.Boxed : Exit → Exit → Prop
  | leaveLoop : Boxed .leaveLoop .leaveLoop
  | leaveCall {v v'} : Value.Boxed P fs v v' → Boxed (.leaveCall v) (.leaveCall v')
  | fail {f} : Boxed (.fail f) (.fail f)

/-- What is in hand. Where the first machine has a statement in hand, or is done with it, the second
one may be about to take it out of an added block, or to leave such a block. -/
inductive Control.Boxed (env env' : Env) : Stage → Control → Control → Prop
  | eval {marks e e'} : Layered fs marks env env' → Node.Boxed P marks (.expr e) (.expr e') →
      Boxed env env' .expression (.eval e) (.eval e')
  | exec {marks d d'} : Layered fs marks env env' → Node.Boxed P marks (.stmt d) (.stmt d') →
      Boxed env env' .statement (.exec d) (.exec d')
  | entered {marks d d'} : Layered fs marks env env' → Node.Boxed P marks (.stmt d) (.stmt d') →
      Boxed env env' .statement (.exec d) (.execAll [d'])
  | execAll {marks body body'} : Layered fs marks env env' →
      Node.Boxed P marks (.stmts body) (.stmts body') →
      Boxed env env' .body (.execAll body) (.execAll body')
  | value {v v'} : Value.Boxed P fs v v' → Boxed env env' .expression (.value v) (.value v')
  | done {q} : Boxed env env' q (.value .nil) (.value .nil)
  | passed : Boxed env env' .statement (.value .nil) (.execAll [])
  | exit {q x x'} : Exit.Boxed P fs x x' → Boxed env env' q (.exit x) (.exit x')

/-- What waits in the current environment: at which stage it takes a value, and at which one it goes
on. -/
inductive Pending.Boxed (marks : List Bool) : Stage → Stage → Pending → Pending → Prop
  -- within an expression
  | unary {op} : Boxed marks .expression .expression (.unary op) (.unary op)
  | binaryLeft {op e e'} : Node.Boxed P marks (.expr e) (.expr e') →
      Boxed marks .expression .expression (.binaryLeft op e) (.binaryLeft op e')
  | binaryRight {v v' op} : Value.Boxed P fs v v' →
      Boxed marks .expression .expression (.binaryRight v op) (.binaryRight v' op)
  | logical {op e e'} : Node.Boxed P marks (.expr e) (.expr e') →
      Boxed marks .expression .expression (.logical op e) (.logical op e')
  | conditional {t t' e e'} : Node.Boxed P marks (.expr t) (.expr t') →
      Node.Boxed P marks (.expr e) (.expr e') →
      Boxed marks .expression .expression (.conditional t e) (.conditional t' e')
  | assign {id id' name} : P marks id id' →
      Boxed marks .expression .expression (.assign id name) (.assign id' name)
  | callee {paren es es'} : Node.Boxed P marks (.exprs es) (.exprs es') →
      Boxed marks .expression .expression (.callee paren es) (.callee paren es')
  | argument {f f' paren found found' es es'} : Value.Boxed P fs f f' →
      List.Forall₂ (Value.Boxed P fs) found found' → Node.Boxed P marks (.exprs es) (.exprs es') →
      Boxed marks .expression .expression (.argument f paren found es)
        (.argument f' paren found' es')
  | property {name} : Boxed marks .expression .expression (.property name) (.property name)
  | target {name e e'} : Node.Boxed P marks (.expr e) (.expr e') →
      Boxed marks .expression .expression (.target name e) (.target name e')
  | field {owner name} :
      Boxed marks .expression .expression (.field owner name) (.field owner name)
  | construct {v v'} : Value.Boxed P fs v v' →
      Boxed marks .expression .expression (.construct v) (.construct v')
  -- within a statement
  | discard : Boxed marks .expression .statement .discard .discard
  | print : Boxed marks .expression .statement .print .print
  | declare {name} : Firm marks → Boxed marks .expression .statement (.declare name) (.declare name)
  | ifThen {t t'} : Node.Boxed P marks (.stmt t) (.stmt t') →
      Boxed marks .expression .statement (.branch t none) (.branch t' none)
  | ifElse {t t' e e'} : Node.Boxed P marks (.stmt t) (.stmt t') →
      Node.Boxed P marks (.stmt e) (.stmt e') →
      Boxed marks .expression .statement (.branch t (some e)) (.branch t' (some e'))
  | loopTest {c c' body body'} : Node.Boxed P marks (.expr c) (.expr c') →
      Node.Boxed P marks (.stmt body) (.stmt body') →
      Boxed marks .expression .statement (.loopTest c body) (.loopTest c' body')
  | giveBack : Boxed marks .expression .statement .giveBack .giveBack
  | loopBody {c c' body body'} : Node.Boxed P marks (.expr c) (.expr c') →
      Node.Boxed P marks (.stmt body) (.stmt body') →
      Boxed marks .statement .statement (.loopBody c body) (.loopBody c' body')
  -- within a body
  | sequence {rest rest'} : Node.Boxed P marks (.stmts rest) (.stmts rest') →
      Boxed marks .statement .body (.sequence rest) (.sequence rest')

/-- All that waits, the next first. After a statement the second machine may have blocks to leave
that were added. -/
inductive WaitsBoxed : Stage → Env → Env → List Pending → List Pending → Prop
  | value {env env'} : WaitsBoxed .expression env env' [] []
  | finish {env env'} : WaitsBoxed .body env env' [] []
  | cons {q q' env env' marks p p' ps ps'} : Layered fs marks env env' →
      Pending.Boxed P fs marks q q' p p' → WaitsBoxed q' env env' ps ps' →
      WaitsBoxed q env env' (p :: ps) (p' :: ps')
  | leaveBlock {env env' outer outer' ps ps'} : WaitsBoxed .statement outer outer' ps ps' →
      WaitsBoxed .body env env' (.leaveBlock outer :: ps) (.leaveBlock outer' :: ps')
  | leaveCall {env env' outer outer' c c' ps ps'} : Closure.Boxed P [] fs c c' →
      WaitsBoxed .expression outer outer' ps ps' →
      WaitsBoxed .body env env' (.leaveCall outer c :: ps) (.leaveCall outer' c' :: ps')
  | addedEnd {env env' ps ps'} : WaitsBoxed .statement env env' ps ps' →
      WaitsBoxed .statement env env' ps (.sequence [] :: ps')
  | addedBlock {env env' outer' ps ps'} : WaitsBoxed .statement env outer' ps ps' →
      WaitsBoxed .statement env env' ps (.leaveBlock outer' :: ps')

/-- The frames that go with each other have the same variables. -/
structure World.Boxed (w w' : World) : Prop where
  next : w.frames.next = fs.length
  next' : ∀ f' ∈ fs, f' < w'.frames.next
  distinct : fs.Nodup
  globals : fs[0]? = some 0
  frames : ∀ f f', fs[f]? = some f' → ∀ name,
    Option.Rel (Value.Boxed P fs) (w.frames.own? f name) (w'.frames.own? f' name)
  nextOwner : w'.nextOwner = w.nextOwner
  fields : ∀ owner name,
    Option.Rel (Value.Boxed P fs) (w.field? owner name) (w'.field? owner name)
  functions : w'.functions = w.functions
  sink : w'.sink = w.sink

/-- The same machine but for the added blocks, apart from what it has in hand. -/
structure BoxedAround (q : Stage) (m m' : Machine) : Prop where
  depth : m'.depth = m.depth
  world : World.Boxed P fs m.world m'.world
  waits : WaitsBoxed P fs q m.env m'.env m.pending m'.pending

end

/-- The same machine but for the added blocks. -/
def Boxed (P : List Bool → NodeId → NodeId → Prop) (m m' : Machine) : Prop :=
  ∃ fs q, BoxedAround P fs q m m' ∧ Control.Boxed P fs m.env m'.env q m.control m'.control

variable {P : List Bool → NodeId → NodeId → Prop} {fs fs' : Places} {w w' : World} {v v' : Value}

/-! ### More frames -/

lemma Pending.Boxed.mono {marks : List Bool} {q q' : Stage} {p p' : Pending}
    (h : Pending.Boxed P fs marks q q' p p') (hfs : fs <+: fs') :
    Pending.Boxed P fs' marks q q' p p' := by
  cases h with
  | binaryRight hv => exact .binaryRight (hv.mono hfs)
  | argument hf hfound hes =>
    exact .argument (hf.mono hfs) (hfound.imp fun _ _ hv => hv.mono hfs) hes
  | construct hv => exact .construct (hv.mono hfs)
  | _ => constructor <;> assumption

lemma WaitsBoxed.mono {q : Stage} {env env' : Env} {ps ps' : List Pending}
    (h : WaitsBoxed P fs q env env' ps ps') (hfs : fs <+: fs') :
    WaitsBoxed P fs' q env env' ps ps' := by
  induction h with
  | value => exact .value
  | finish => exact .finish
  | cons hm hp _ ih => exact .cons (hm.mono hfs) (hp.mono hfs) ih
  | leaveBlock _ ih => exact .leaveBlock ih
  | leaveCall hc _ ih => exact .leaveCall (hc.mono hfs) ih
  | addedEnd _ ih => exact .addedEnd ih
  | addedBlock _ ih => exact .addedBlock ih

/-! ### Worlds -/

namespace World.Boxed

variable (h : World.Boxed P fs w w')

include h

lemma binds {f f' : FrameId} (hf : fs[f]? = some f') (name : String) :
    w'.frames.binds name f' = w.frames.binds name f := by
  have hown := h.frames f f' hf name
  unfold Frames.binds
  generalize w.frames.own? f name = a at hown ⊢
  generalize w'.frames.own? f' name = a' at hown ⊢
  cases hown <;> rfl

lemma write {f f' : FrameId} (hf : fs[f]? = some f') (name : String)
    (hv : Value.Boxed P fs v v') :
    World.Boxed P fs (w.write f name v) (w'.write f' name v') where
  next := (Frames.next_write ..).trans h.next
  next' g' hg := (h.next' g' hg).trans_eq (Frames.next_write ..).symm
  distinct := h.distinct
  globals := h.globals
  frames g g' hg other := by
    have hlt : f < w.frames.next := h.next ▸ (List.getElem?_eq_some_iff.mp hf).1
    have hlt' : f' < w'.frames.next := h.next' f' (List.mem_of_getElem? hf)
    change Option.Rel _ ((w.frames.write f name v).own? g other)
      ((w'.frames.write f' name v').own? g' other)
    rw [Frames.own?_write, Frames.own?_write]
    by_cases hfg : f = g
    · subst hfg
      obtain rfl : f' = g' := Option.some.inj (hf.symm.trans hg)
      simp only [true_and, hlt, hlt', and_true]
      split
      · exact .some hv
      · exact h.frames f f' hf other
    · have hfg' : f' ≠ g' := by
        rintro rfl
        have hbound := (List.getElem?_eq_some_iff.mp hf).1
        exact hfg ((List.getElem?_inj hbound h.distinct).mp (hf.trans hg.symm))
      simp only [hfg, hfg', false_and, if_false]
      exact h.frames g g' hg other
  nextOwner := h.nextOwner
  fields := h.fields
  functions := h.functions
  sink := h.sink

/-- A frame of its own for either machine. -/
lemma addFrame {t t' : Table Value}
    (ht : ∀ name, Option.Rel (Value.Boxed P fs) (t.get? name) (t'.get? name)) :
    World.Boxed P (fs ++ [w'.frames.next]) (w.addFrame t) (w'.addFrame t') where
  next := by
    rw [List.length_append, ← h.next]
    exact Frames.next_push ..
  next' f' hf := by
    have hpushed : (w'.addFrame t').frames.next = w'.frames.next + 1 := Frames.next_push ..
    rw [hpushed, Nat.lt_succ_iff]
    obtain hf | hf := List.mem_append.mp hf
    · exact (h.next' f' hf).le
    · exact (List.mem_singleton.mp hf).le
  distinct := by
    refine List.nodup_append.mpr ⟨h.distinct, List.pairwise_singleton _ _, fun f' hf g' hg => ?_⟩
    rw [List.mem_singleton.mp hg]
    exact (h.next' f' hf).ne
  globals := place_of_grown h.globals (List.prefix_append ..)
  frames g g' hg name := by
    have hmono : ∀ {a a'}, Option.Rel (Value.Boxed P fs) a a' →
        Option.Rel (Value.Boxed P (fs ++ [w'.frames.next])) a a' :=
      Table.rel_mono fun _ _ hv => hv.mono (List.prefix_append ..)
    change Option.Rel _ ((w.frames.push t).own? g name) ((w'.frames.push t').own? g' name)
    rw [Frames.own?_push, Frames.own?_push, h.next]
    obtain hlt | rfl | hgt := lt_trichotomy g fs.length
    · rw [List.getElem?_append_left hlt] at hg
      have hg' := h.next' g' (List.mem_of_getElem? hg)
      rw [if_neg hlt.ne, if_neg hg'.ne]
      exact hmono (h.frames g g' hg name)
    · rw [List.getElem?_concat_length] at hg
      rw [if_pos rfl, if_pos (Option.some.inj hg).symm]
      exact hmono (ht name)
    · have hlength : (fs ++ [w'.frames.next]).length ≤ g := by
        rw [List.length_append]
        exact hgt
      rw [List.getElem?_eq_none hlength] at hg
      cases hg
  nextOwner := h.nextOwner
  fields owner name :=
    Table.rel_mono (fun _ _ hv => hv.mono (List.prefix_append ..)) (h.fields owner name)
  functions := h.functions
  sink := h.sink

/-- The frame of a block that was added. -/
lemma addEmpty : World.Boxed P fs w (w'.addFrame []) :=
  { h with
    next' := fun f' hf => by
      have hpushed : (w'.addFrame []).frames.next = w'.frames.next + 1 := Frames.next_push ..
      rw [hpushed]
      exact (h.next' f' hf).trans (Nat.lt_succ_self _)
    frames := fun f f' hf name => by
      change Option.Rel _ _ ((w'.frames.push []).own? f' name)
      rw [Frames.own?_push, if_neg (h.next' f' (List.mem_of_getElem? hf)).ne]
      exact h.frames f f' hf name }

lemma addOwner : World.Boxed P fs w.addOwner w'.addOwner :=
  { h with
    nextOwner := by
      rw [World.nextOwner_addOwner, World.nextOwner_addOwner, h.nextOwner]
    fields := fun owner name => by
      rw [World.field?_addOwner, World.field?_addOwner]
      exact h.fields owner name }

lemma setField (owner : ℕ) (name : String) (hv : Value.Boxed P fs v v') :
    World.Boxed P fs (w.setField owner name v) (w'.setField owner name v') :=
  { h with
    nextOwner := by
      rw [World.nextOwner_setField, World.nextOwner_setField, h.nextOwner]
    fields := fun other name' => by
      rw [World.field?_setField, World.field?_setField, h.nextOwner]
      split
      · exact .some hv
      · exact h.fields other name' }

lemma addFunction : World.Boxed P fs w.addFunction w'.addFunction :=
  { h with functions := congrArg (· + 1) h.functions }

lemma put (bytes : ByteArray) : World.Boxed P fs (w.put bytes) (w'.put bytes) :=
  { h with sink := congrArg (·.put bytes) h.sink }

end World.Boxed

end Machine

end Lox
