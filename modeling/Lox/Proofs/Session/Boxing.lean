import Lox.Proofs.Machine.BoxedSteps
import Lox.Proofs.Session.Activations

/-!
A session and a program in which some statements stand in blocks of their own.

The program is accepted if it would be without these blocks. It then runs as it would without them,
though not with as many steps.
-/

namespace Lox

open Scope Machine

/-! ### What was there before -/

namespace Machine

variable {x : Scene} {known known' : Distances} {i i' : NodeId}

/-- Each frame goes with itself. -/
lemma Mirrors.layered {env : Env} {xs : List Region} (h : Mirrors x.labels env xs) (k : ℕ) :
    Layered (List.range x.labels.length) (List.replicate k false) env env := by
  intro d
  rw [outward_replicate]
  exact Table.rel_self fun f hf => List.getElem?_range (h.label (List.mem_of_getElem? hf))

section
variable (hknown : Recorded known i x.inputs) (hknown' : Recorded known' i' x.inputs)

include hknown hknown'

lemma ClosureOk.boxed {c : Closure} (hc : ClosureOk x c) :
    Closure.Boxed (Finds known known') [] (List.range x.labels.length) c c := by
  obtain ⟨⟨S, sort, ⟨xs, ctx, s, hv, hm, -⟩, -⟩, -⟩ := hc
  exact ⟨rfl, _, sort, hm.layered _, firm_replicate _, hv.function_boxed hknown hknown'⟩

lemma MethodOk.boxed {c : Closure} (hc : MethodOk x c) :
    Closure.Boxed (Finds known known') [false] (List.range x.labels.length) c c := by
  obtain ⟨y, S, sort, -, ⟨xs, ctx, s, hv, hm, hs⟩, -⟩ := hc
  -- the innermost layer is that of `this`
  have hlength : s.layers.length = S.length + 1 := by
    simpa [Survey.shape] using congrArg List.length hs
  have hcode := hv.function_boxed hknown hknown'
  rw [hlength, List.replicate_succ] at hcode
  exact ⟨rfl, _, sort, hm.layered S.length, firm_cons, hcode⟩

lemma ValueOk.boxed {v : Value} (hv : ValueOk x v) :
    Value.Boxed (Finds known known') (List.range x.labels.length) v v :=
  hv.like (fun _ hc => hc.boxed hknown hknown') fun _ hc => MethodOk.boxed hknown hknown' hc

lemma WorldOk.boxed {w : World} (hw : WorldOk x w) :
    World.Boxed (Finds known known') (List.range x.labels.length) w w where
  next := by rw [List.length_range, hw.length]
  next' f hf := by
    rw [← hw.length]
    exact List.mem_range.mp hf
  distinct := List.nodup_range
  globals := List.getElem?_range (List.getElem?_eq_some_iff.mp x.globals).1
  frames f f' hf name := by
    obtain ⟨hlt, rfl⟩ := List.getElem?_eq_some_iff.mp hf
    rw [List.getElem_range]
    exact Table.rel_self fun v hv => (hw.values f name v hv).boxed hknown hknown'
  nextOwner := rfl
  fields owner name := Table.rel_self fun v hv => (hw.fields owner name v hv).boxed hknown hknown'
  functions := rfl
  sink := rfl

end

end Machine

namespace Session

variable {services : List Service} {sink : Sink} {s t : Session} {past : List Session}
  {inputs : List Grammar.Input} {mode : Grammar.Mode} {source : String} {body body' : List Stmt}

/-! ### Two sessions -/

/-- The second session runs the same program as the first one, with more blocks. -/
def Boxed (s t : Session) : Prop :=
  ∃ P, Machine.Boxed P s.machine t.machine ∧
    Setting.Boxed P ⟨s.distances, s.host⟩ ⟨t.distances, t.host⟩

namespace Boxed

variable (h : Boxed s t)

include h

/-- Wherever the first session comes, the second one comes too, -/
lemma resume (n : ℕ) : ∃ n', Boxed (s.resume n) (t.resume n') := by
  obtain ⟨P, hmachine, hsetting⟩ := h
  obtain ⟨n', hrun⟩ := hmachine.run hsetting n
  exact ⟨n', P, hrun, hsetting⟩

lemma output : t.output = s.output := by
  obtain ⟨P, hmachine, -⟩ := h
  exact congrArg Sink.written hmachine.sink_eq

lemma ending (body body' : List Stmt) :
    t.ending (.statements body') = s.ending (.statements body) := by
  obtain ⟨P, hmachine, -⟩ := h
  have hresult := hmachine.result_like
  unfold Session.ending
  rw [hmachine.sink_eq]
  generalize s.machine.result? = r at hresult ⊢
  generalize t.machine.result? = r' at hresult ⊢
  cases hresult with
  | none => rfl
  | some hr =>
    cases s.machine.world.sink.flushFault? <;> cases hr <;> rfl

/-- Global variables look the same. -/
lemma texts (name : String) :
    (t.global? name).map Value.text = (s.global? name).map Value.text := by
  obtain ⟨P, ⟨fs, q, ⟨-, hworld, -⟩, -⟩, -⟩ := h
  have hglobal := hworld.frames 0 0 hworld.globals name
  unfold global? Env.globals
  rw [Frames.get?_singleton, Frames.get?_singleton]
  generalize s.machine.world.frames.own? 0 name = v at hglobal ⊢
  generalize t.machine.world.frames.own? 0 name = v' at hglobal ⊢
  cases hglobal with
  | none => rfl
  | some hv => exact congrArg some hv.text

end Boxed

/-! ### Inputs -/

end Session

end Lox
