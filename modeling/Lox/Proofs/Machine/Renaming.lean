import Lox.Proofs.Machine.Faults
import Lox.Proofs.Machine.Likeness
import Lox.Proofs.Scope.Findings

/-!
Runs of programs in which local variables have another name.

The frames of the marked scopes have the new name in place of the old one, and a reference leads to
such a frame exactly if its name is replaced. So at every step both machines find their variables in
the same frames, and apart from the names of variables they do the same.
-/

namespace Lox

open Scope

/-! ### Functions -/

/-- What is the same of two functions, and in which scope their parameters and bodies stand. -/
lemma Scope.Node.Renamed.function_inv {r : Renaming} {marks : List Bool} {sort sort' : Body}
    {d d' : FunctionDecl} (h : Node.Renamed true r marks (.function sort d) (.function sort' d')) :
    d'.name = d.name ∧ d'.isGetter = d.isGetter ∧
      ∃ mark, d'.paramList = d.paramList.map (r.token mark) ∧
        Node.Renamed true r (mark :: marks) (.stmts d.body) (.stmts d'.body) := by
  cases h with
  | @body _ _ name params code code' mark _ hcode =>
    refine ⟨rfl, ?_, mark, ?_, hcode⟩
    · cases params <;> rfl
    · cases params <;> rfl

namespace Machine

/-- Which frames are activations of marked scopes, in order of creation. -/
abbrev Marks := List Bool

/-- The frames of the environment are marked as the scopes around a node are; what is left of the
environment is not marked. -/
def Marked (fs : Marks) (env : Env) (marks : List Bool) : Prop :=
  ∀ (d : ℕ) f, env[d]? = some f → fs[f]? = some (marks.getD d false)

section
variable {fs fs' : Marks} {env : Env} {marks : List Bool} {f : FrameId} {mark : Bool}

lemma mark_of_grown (h : fs[f]? = some mark) (hfs : fs <+: fs') : fs'[f]? = some mark := by
  obtain ⟨more, rfl⟩ := hfs
  rwa [List.getElem?_append_left (List.getElem?_eq_some_iff.mp h).1]

lemma Marked.mono (h : Marked fs env marks) (hfs : fs <+: fs') : Marked fs' env marks :=
  fun d f hf => mark_of_grown (h d f hf) hfs

lemma Marked.cons (h : Marked fs env marks) (hf : fs[f]? = some mark) :
    Marked fs (f :: env) (mark :: marks) := by
  intro d g hg
  cases d with
  | zero => exact Option.some.inj hg ▸ hf
  | succ d => exact h d g hg

end

end Machine

open Machine

/-- The second function is the first one with other names, in the same environment. The scopes
directly around its code, `outer`, have no frames there. -/
structure Closure.Renamed (r : Renaming) (outer : List Bool) (fs : Marks) (c c' : Closure) :
    Prop where
  env : c'.env = c.env
  isInitializer : c'.isInitializer = c.isInitializer
  code : ∃ marks sort, Marked fs c.env marks ∧
    Node.Renamed true r (outer ++ marks) (.function sort c.decl) (.function sort c'.decl)

/-- Methods lack the frame in which they are bound to an object, and it is not marked. -/
abbrev Value.Renamed (r : Renaming) (fs : Marks) : Value → Value → Prop :=
  Value.Like (Closure.Renamed r [] fs) (Closure.Renamed r [false] fs)

section
variable {r : Renaming} {outer : List Bool} {fs fs' : Marks}

namespace Closure.Renamed

variable {c c' : Closure}

lemma looksLike (h : Closure.Renamed r outer fs c c') : c.LooksLike c' := by
  obtain ⟨marks, sort, -, hcode⟩ := h.code
  obtain ⟨hname, -, mark, hparams, -⟩ := hcode.function_inv
  refine ⟨congrArg (·.lexeme) hname, ?_⟩
  rw [Closure.arity, FunctionDecl.arity, hparams, List.length_map]
  rfl

lemma mono (h : Closure.Renamed r outer fs c c') (hfs : fs <+: fs') :
    Closure.Renamed r outer fs' c c' := by
  obtain ⟨henv, hinit, marks, sort, hmarked, hcode⟩ := h
  exact ⟨henv, hinit, marks, sort, hmarked.mono hfs, hcode⟩

/-- With a frame for `this` a method is a function. -/
lemma within (h : Closure.Renamed r [false] fs c c') {f : FrameId} (hf : fs[f]? = some false) :
    Closure.Renamed r [] fs (c.within f) (c'.within f) := by
  obtain ⟨henv, hinit, marks, sort, hmarked, hcode⟩ := h
  exact ⟨congrArg (f :: ·) henv, hinit, false :: marks, sort, hmarked.cons hf, hcode⟩

end Closure.Renamed

namespace Value.Renamed

variable {v v' : Value}

lemma mono (h : Value.Renamed r fs v v') (hfs : fs <+: fs') : Value.Renamed r fs' v v' :=
  h.imp (fun _ _ hc => hc.mono hfs) fun _ _ hc => hc.mono hfs

lemma text (h : Value.Renamed r fs v v') : v'.text = v.text :=
  h.text_eq fun _ _ hc => hc.looksLike

lemma arity? (h : Value.Renamed r fs v v') : v'.arity? = v.arity? :=
  h.arity?_eq (fun _ _ hc => hc.looksLike) fun _ _ hc => hc.looksLike

end Value.Renamed

end

/-- The same failure. Where a variable was missed at a recorded distance, the two names may be
exchanged in the report. -/
inductive Failure.Renamed (r : Renaming) (missed : Prop) : Failure → Failure → Prop
  | same {f} : Renamed r missed f f
  | undefined {line name} : missed → Renamed r missed (.runtime line (.undefinedVariable name))
      (.runtime line (.undefinedVariable (r.key true name)))

namespace Machine

/-! ### States -/

section
variable (r : Renaming) (missed : Prop) (fs : Marks)

inductive Exit.Renamed : Exit → Exit → Prop
  | leaveLoop : Renamed .leaveLoop .leaveLoop
  | leaveCall {v v'} : Value.Renamed r fs v v' → Renamed (.leaveCall v) (.leaveCall v')
  | fail {f f'} : Failure.Renamed r missed f f' → Renamed (.fail f) (.fail f')

inductive Control.Renamed (env : Env) : Control → Control → Prop
  | eval {marks e} : Marked fs env marks → Renamed env (.eval e) (.eval (e.rename r marks))
  | exec {marks d d'} : Marked fs env marks → Node.Renamed true r marks (.stmt d) (.stmt d') →
      Renamed env (.exec d) (.exec d')
  | execAll {marks body body'} : Marked fs env marks →
      Node.Renamed true r marks (.stmts body) (.stmts body') →
      Renamed env (.execAll body) (.execAll body')
  | value {v v'} : Value.Renamed r fs v v' → Renamed env (.value v) (.value v')
  | exit {x x'} : Exit.Renamed r missed fs x x' → Renamed env (.exit x) (.exit x')

/-- What waits in the current environment. -/
inductive Pending.Renamed (marks : List Bool) : Pending → Pending → Prop
  | unary {op} : Renamed marks (.unary op) (.unary op)
  | binaryLeft {op e} : Renamed marks (.binaryLeft op e) (.binaryLeft op (e.rename r marks))
  | binaryRight {v v' op} : Value.Renamed r fs v v' →
      Renamed marks (.binaryRight v op) (.binaryRight v' op)
  | logical {op e} : Renamed marks (.logical op e) (.logical op (e.rename r marks))
  | conditional {t e} :
      Renamed marks (.conditional t e) (.conditional (t.rename r marks) (e.rename r marks))
  | assign {id name} : Renamed marks (.assign id name) (.assign id (r.referred marks id name))
  | callee {paren arguments} :
      Renamed marks (.callee paren arguments) (.callee paren (arguments.map (Expr.rename r marks)))
  | argument {f f' paren found found' rest} : Value.Renamed r fs f f' →
      List.Forall₂ (Value.Renamed r fs) found found' →
      Renamed marks (.argument f paren found rest)
        (.argument f' paren found' (rest.map (Expr.rename r marks)))
  | property {name} : Renamed marks (.property name) (.property name)
  | target {name e} : Renamed marks (.target name e) (.target name (e.rename r marks))
  | field {owner name} : Renamed marks (.field owner name) (.field owner name)
  | discard : Renamed marks .discard .discard
  | print : Renamed marks .print .print
  | declare {name} : Renamed marks (.declare name) (.declare (r.declared marks name))
  | ifThen {t t'} : Node.Renamed true r marks (.stmt t) (.stmt t') →
      Renamed marks (.branch t none) (.branch t' none)
  | ifElse {t t' e e'} : Node.Renamed true r marks (.stmt t) (.stmt t') →
      Node.Renamed true r marks (.stmt e) (.stmt e') →
      Renamed marks (.branch t (some e)) (.branch t' (some e'))
  | loopTest {c body body'} : Node.Renamed true r marks (.stmt body) (.stmt body') →
      Renamed marks (.loopTest c body) (.loopTest (c.rename r marks) body')
  | loopBody {c body body'} : Node.Renamed true r marks (.stmt body) (.stmt body') →
      Renamed marks (.loopBody c body) (.loopBody (c.rename r marks) body')
  | giveBack : Renamed marks .giveBack .giveBack
  | sequence {rest rest'} : Node.Renamed true r marks (.stmts rest) (.stmts rest') →
      Renamed marks (.sequence rest) (.sequence rest')
  | construct {v v'} : Value.Renamed r fs v v' → Renamed marks (.construct v) (.construct v')

/-- All that waits, the next first; the end of a block or a call brings the environment back in
which the rest waits. -/
inductive WaitsRenamed : Env → List Pending → List Pending → Prop
  | nil {env} : WaitsRenamed env [] []
  | cons {env marks p p' ps ps'} : Marked fs env marks → Pending.Renamed r fs marks p p' →
      WaitsRenamed env ps ps' → WaitsRenamed env (p :: ps) (p' :: ps')
  | leaveBlock {env outer ps ps'} : WaitsRenamed outer ps ps' →
      WaitsRenamed env (.leaveBlock outer :: ps) (.leaveBlock outer :: ps')
  | leaveCall {env outer c c' ps ps'} : Closure.Renamed r [] fs c c' →
      WaitsRenamed outer ps ps' →
      WaitsRenamed env (.leaveCall outer c :: ps) (.leaveCall outer c' :: ps')

/-- In each frame the values are found under the names of the second program. -/
structure World.Renamed (w w' : World) : Prop where
  next : w.frames.next = fs.length
  next' : w'.frames.next = fs.length
  globals : fs[0]? = some false
  frames : ∀ f mark, fs[f]? = some mark → ∀ name,
    Option.Rel (Value.Renamed r fs) (w.frames.own? f name) (w'.frames.own? f (r.key mark name))
  nextOwner : w'.nextOwner = w.nextOwner
  fields : ∀ owner name,
    Option.Rel (Value.Renamed r fs) (w.field? owner name) (w'.field? owner name)
  functions : w'.functions = w.functions
  sink : w'.sink = w.sink

/-- The same machine with other names, but for what it has in hand. -/
structure Paired (m m' : Machine) : Prop where
  env : m'.env = m.env
  depth : m'.depth = m.depth
  world : World.Renamed r fs m.world m'.world
  waits : WaitsRenamed r fs m.env m.pending m'.pending

/-- The same machine with other names. -/
def Renamed (m m' : Machine) : Prop :=
  ∃ fs, Paired r fs m m' ∧ Control.Renamed r missed fs m.env m.control m'.control

end

variable {r : Renaming} {missed : Prop} {fs fs' : Marks} {w w' : World} {v v' : Value}

/-! ### More frames -/

lemma Pending.Renamed.mono {marks : List Bool} {p p' : Pending}
    (h : Pending.Renamed r fs marks p p') (hfs : fs <+: fs') :
    Pending.Renamed r fs' marks p p' := by
  cases h with
  | binaryRight hv => exact .binaryRight (hv.mono hfs)
  | argument hf hfound => exact .argument (hf.mono hfs) (hfound.imp fun _ _ hv => hv.mono hfs)
  | ifThen ht => exact .ifThen ht
  | ifElse ht he => exact .ifElse ht he
  | loopTest hbody => exact .loopTest hbody
  | loopBody hbody => exact .loopBody hbody
  | sequence hrest => exact .sequence hrest
  | construct hv => exact .construct (hv.mono hfs)
  | _ => constructor

lemma WaitsRenamed.mono {env : Env} {ps ps' : List Pending} (h : WaitsRenamed r fs env ps ps')
    (hfs : fs <+: fs') : WaitsRenamed r fs' env ps ps' := by
  induction h with
  | nil => exact .nil
  | cons hm hp _ ih => exact .cons (hm.mono hfs) (hp.mono hfs) ih
  | leaveBlock _ ih => exact .leaveBlock ih
  | leaveCall hc _ ih => exact .leaveCall (hc.mono hfs) ih

/-! ### Worlds -/

namespace World.Renamed

variable (h : World.Renamed r fs w w')

include h

lemma binds {f : FrameId} {mark : Bool} (hf : fs[f]? = some mark) (name : String) :
    w'.frames.binds (r.key mark name) f = w.frames.binds name f := by
  have hown := h.frames f mark hf name
  unfold Frames.binds
  generalize w.frames.own? f name = a at hown ⊢
  generalize w'.frames.own? f (r.key mark name) = a' at hown ⊢
  cases hown <;> rfl

lemma write {f : FrameId} {mark : Bool} (hf : fs[f]? = some mark) (name : String)
    (hv : Value.Renamed r fs v v') :
    World.Renamed r fs (w.write f name v) (w'.write f (r.key mark name) v') where
  next := (Frames.next_write ..).trans h.next
  next' := (Frames.next_write ..).trans h.next'
  globals := h.globals
  frames g mark' hg other := by
    have hlt : f < w.frames.next ↔ f < w'.frames.next := by rw [h.next, h.next']
    change Option.Rel _ ((w.frames.write f name v).own? g other)
      ((w'.frames.write f (r.key mark name) v').own? g (r.key mark' other))
    rw [Frames.own?_write, Frames.own?_write]
    by_cases hfg : f = g
    · subst hfg
      obtain rfl : mark = mark' := Option.some.inj (hf.symm.trans hg)
      simp only [true_and, (r.key_injective mark).eq_iff, ← hlt]
      split
      · exact .some hv
      · exact h.frames f mark hf other
    · simp only [hfg, false_and, if_false]
      exact h.frames g mark' hg other
  nextOwner := h.nextOwner
  fields := h.fields
  functions := h.functions
  sink := h.sink

lemma addFrame {mark : Bool} {t t' : Table Value} (ht : ∀ name,
      Option.Rel (Value.Renamed r fs) (t.get? name) (t'.get? (r.key mark name))) :
    World.Renamed r (fs ++ [mark]) (w.addFrame t) (w'.addFrame t') where
  next := by
    rw [List.length_append, ← h.next]
    exact Frames.next_push ..
  next' := by
    rw [List.length_append, ← h.next']
    exact Frames.next_push ..
  globals := mark_of_grown h.globals (List.prefix_append ..)
  frames g mark' hg name := by
    have hmono : ∀ {a a'}, Option.Rel (Value.Renamed r fs) a a' →
        Option.Rel (Value.Renamed r (fs ++ [mark])) a a' :=
      Table.rel_mono fun _ _ hv => hv.mono (List.prefix_append ..)
    change Option.Rel _ ((w.frames.push t).own? g name) ((w'.frames.push t').own? g _)
    rw [Frames.own?_push, Frames.own?_push, h.next, h.next']
    split
    · rename_i hnew
      obtain rfl : mark = mark' := by
        rw [hnew, List.getElem?_concat_length] at hg
        exact Option.some.inj hg
      exact hmono (ht name)
    · rename_i hold
      refine hmono (h.frames g mark' ?_ name)
      rcases lt_or_gt_of_ne hold with hlt | hgt
      · rwa [List.getElem?_append_left hlt] at hg
      · have hlength : (fs ++ [mark]).length ≤ g := by
          rw [List.length_append]
          exact hgt
        rw [List.getElem?_eq_none hlength] at hg
        cases hg
  nextOwner := h.nextOwner
  fields owner name :=
    Table.rel_mono (fun _ _ hv => hv.mono (List.prefix_append ..)) (h.fields owner name)
  functions := h.functions
  sink := h.sink

lemma addOwner : World.Renamed r fs w.addOwner w'.addOwner :=
  { h with
    nextOwner := by
      rw [World.nextOwner_addOwner, World.nextOwner_addOwner, h.nextOwner]
    fields := fun owner name => by
      rw [World.field?_addOwner, World.field?_addOwner]
      exact h.fields owner name }

lemma setField (owner : ℕ) (name : String) (hv : Value.Renamed r fs v v') :
    World.Renamed r fs (w.setField owner name v) (w'.setField owner name v') :=
  { h with
    nextOwner := by
      rw [World.nextOwner_setField, World.nextOwner_setField, h.nextOwner]
    fields := fun other name' => by
      rw [World.field?_setField, World.field?_setField, h.nextOwner]
      split
      · exact .some hv
      · exact h.fields other name' }

lemma addFunction : World.Renamed r fs w.addFunction w'.addFunction :=
  { h with functions := congrArg (· + 1) h.functions }

lemma put (bytes : ByteArray) : World.Renamed r fs (w.put bytes) (w'.put bytes) :=
  { h with sink := congrArg (·.put bytes) h.sink }

end World.Renamed

end Machine

end Lox
