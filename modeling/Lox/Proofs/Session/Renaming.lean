import Mathlib
import Lox.Proofs.Machine.RenamedSteps
import Lox.Proofs.Scope.Spelling
import Lox.Proofs.Session.Definedness
import Lox.Proofs.Session.Layout

/-!
Local variables may have any name.

A program in which variables and parameters of inner scopes have another name is accepted if it was
accepted before, with the same distances, and runs as it did before.
-/

namespace Lox

open Scope Machine

/-! ### At the start of an input -/

namespace Machine

variable {x : Scene} {m m' : Machine} {w : World} {env : Env} {xs : List Region} {fs : Marks}
  {r : Renaming} {missed : Prop} {f : FrameId}

/-- None of the frames there are is marked. -/
def Plain (x : Scene) (fs : Marks) : Prop := fs = List.replicate x.labels.length false

lemma Plain.mark (h : Plain x fs) (hf : f < x.labels.length) : fs[f]? = some false := by
  obtain rfl := h
  rw [List.getElem?_replicate, if_pos hf]

lemma Plain.marked (h : Plain x fs) (hm : Mirrors x.labels env xs) : Marked fs env [] :=
  fun _ _ hf => h.mark (hm.label (List.mem_of_getElem? hf))

/-- What comes of two runs: nothing yet, the same value, or the same failure. -/
lemma Renamed.result? (h : Renamed r missed m m') :
    (m.result? = none ∧ m'.result? = none) ∨
      (∃ v v', m.result? = some (.ok v) ∧ m'.result? = some (.ok v') ∧ v'.text = v.text) ∨
      ∃ f f', m.result? = some (.error f) ∧ m'.result? = some (.error f') ∧
        f.Renamed r missed f' := by
  obtain ⟨fs, ⟨-, -, -, hwaits⟩, hk⟩ := h
  obtain ⟨k, pending, env, depth, w⟩ := m
  obtain ⟨k', pending', env', depth', w'⟩ := m'
  dsimp only at hwaits hk
  cases hwaits with
  | nil =>
    cases hk with
    | value hv => exact .inr (.inl ⟨_, _, rfl, rfl, hv.text⟩)
    | exit hx =>
      refine .inr (.inr ⟨_, _, rfl, rfl, ?_⟩)
      cases hx with
      | fail hf => exact hf
      | _ => exact .same
    | _ => exact .inl ⟨rfl, rfl⟩
  | _ => exact .inl ⟨rfl, rfl⟩

end Machine

/-- The same value as text, the same failure, or no end yet. -/
inductive Ending.Renamed (r : Renaming) (missed : Prop) : Ending → Ending → Prop
  | done {v v'} : v'.map Value.text = v.map Value.text → Renamed r missed (.done v) (.done v')
  | failed {f f'} : Failure.Renamed r missed f f' → Renamed r missed (.failed f) (.failed f')
  | unfinished : Renamed r missed .unfinished .unfinished

namespace Session

variable {services : List Service} {sink : Sink} {s t t' : Session} {past : List Session}
  {inputs : List Grammar.Input} {mode : Grammar.Mode} {source source' : String}
  {input input' : Grammar.Input} {j : NodeId} {r : Renaming} {missed : Prop}

end Session

end Lox
