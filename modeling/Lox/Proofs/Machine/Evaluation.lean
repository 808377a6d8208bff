import Mathlib.Data.Nat.Notation
import Lox.Proofs.Machine.Returning

/-!
Runs put together from those of the parts.

What is taken up is evaluated above whatever waits. So the run of an expression or a statement
consists of the runs of its parts, one after another.
-/

namespace Lox.Machine

/-- One machine comes to another after some steps. -/
def Goes (s : Setting) (m n : Machine) : Prop := ∃ k, m.run s k = n

/-- Above whatever waits, what is taken up comes to a value. -/
def Evaluates (s : Setting) (env : Env) (depth : ℕ) (control : Control) (w : World) (v : Value)
    (w' : World) : Prop :=
  ∀ ps, Goes s ⟨control, ps, env, depth, w⟩ ⟨.value v, ps, env, depth, w'⟩

variable {s : Setting} {m n r : Machine} {env env' : Env} {depth : ℕ} {w w' w'' : World}
  {ps : List Pending} {e f l : Expr} {d t : Stmt} {rest : List Stmt} {id : NodeId}
  {name op paren : Token} {v lv rv : Value} {c : Closure}

namespace Goes

lemma refl (m : Machine) : Goes s m m := ⟨0, rfl⟩

lemma trans (h : Goes s m n) (h' : Goes s n r) : Goes s m r := by
  obtain ⟨j, rfl⟩ := h
  obtain ⟨k, rfl⟩ := h'
  exact ⟨j + k, run_add s j k m⟩

lemma step (h : Goes s (m.step s) n) : Goes s m n :=
  trans ⟨1, run_succ s 0 m⟩ h

end Goes

/-! ### Expressions -/

lemma evaluates_literal (k : Literal) :
    Evaluates s env depth (.eval (.literal k)) w (literal k) w :=
  fun _ => .step (.refl _)

/-- A global variable. -/
lemma evaluates_reference (hd : s.distances[id]? = none)
    (hv : w.frames.own? 0 name.lexeme = some v) :
    Evaluates s env depth (.eval (.reference id name)) w v w := by
  intro ps
  have hread : readVariable s ⟨.eval (.reference id name), ps, env, depth, w⟩ id name =
      ⟨.value v, ps, env, depth, w⟩ := by
    unfold readVariable
    dsimp only
    rw [hd]
    unfold Env.globals
    dsimp only
    rw [Frames.get?_singleton, hv]
    rfl
  exact .step ⟨0, hread⟩

lemma evaluates_binary (hl : Evaluates s env depth (.eval l) w lv w')
    (hr : Evaluates s env depth (.eval e) w' rv w'') (hv : Operator.binary op lv rv = .ok v) :
    Evaluates s env depth (.eval (.binary l op e)) w v w'' := by
  intro ps
  refine .step ((hl (.binaryLeft op e :: ps)).trans (.step ?_))
  refine (hr (.binaryRight lv op :: ps)).trans (.step ⟨0, ?_⟩)
  change giveResult ⟨.value rv, ps, env, depth, w''⟩ (Operator.binary op lv rv) = _
  rw [hv]
  rfl

/-- An assignment to a global variable. -/
lemma evaluates_assign (hd : s.distances[id]? = none) (hv : Evaluates s env depth (.eval e) w v w')
    (hbinds : w'.frames.binds name.lexeme 0) :
    Evaluates s env depth (.eval (.assign id name e)) w v (w'.write 0 name.lexeme v) := by
  intro ps
  refine .step ((hv (.assign id name :: ps)).trans (.step ⟨0, ?_⟩))
  change writeVariable s ⟨.value v, ps, env, depth, w'⟩ id name v = _
  have hholder : w'.frames.holder? Env.globals name.lexeme = some 0 :=
    List.find?_cons_of_pos hbinds
  unfold writeVariable
  dsimp only
  rw [hd]
  dsimp only
  rw [hholder]
  rfl

/-! ### Statements -/

lemma evaluates_expression (h : Evaluates s env depth (.eval e) w v w') :
    Evaluates s env depth (.exec (.expression e)) w .nil w' :=
  fun ps => .step ((h (.discard :: ps)).trans (.step (.refl _)))

lemma evaluates_declare (h : Evaluates s Env.globals depth (.eval e) w v w') :
    Evaluates s Env.globals depth (.exec (.declare name (some e))) w .nil
      (w'.write 0 name.lexeme v) :=
  fun ps => .step ((h (.declare name :: ps)).trans (.step (.refl _)))

lemma evaluates_function (k : FunctionDecl) :
    Evaluates s Env.globals depth (.exec (.function k)) w .nil
      (w.addFunction.write 0 k.name.lexeme (.function w.functions ⟨k, Env.globals, false⟩)) :=
  fun _ => .step (.refl _)

lemma goes_first (h : Evaluates s env depth (.exec d) w v w') (rest : List Stmt)
    (ps : List Pending) : Goes s ⟨.execAll (d :: rest), ps, env, depth, w⟩
      ⟨.execAll rest, ps, env, depth, w'⟩ :=
  .step ((h (.sequence rest :: ps)).trans (.step (.refl _)))

lemma goes_taken (h : Evaluates s env depth (.eval e) w v w') (hv : v.isTruthy) (t : Stmt)
    (ps : List Pending) : Goes s ⟨.exec (.branch e t none), ps, env, depth, w⟩
      ⟨.exec t, ps, env, depth, w'⟩ := by
  refine .step ((h (.branch t none :: ps)).trans (.step ⟨0, ?_⟩))
  change receive s _ (.branch t none) v = _
  unfold receive
  dsimp only
  rw [if_pos hv]

lemma goes_skipped (h : Evaluates s env depth (.eval e) w v w') (hv : ¬v.isTruthy) (t : Stmt)
    (ps : List Pending) : Goes s ⟨.exec (.branch e t none), ps, env, depth, w⟩
      ⟨.value .nil, ps, env, depth, w'⟩ := by
  refine .step ((h (.branch t none :: ps)).trans (.step ⟨0, ?_⟩))
  change receive s _ (.branch t none) v = _
  unfold receive
  dsimp only
  rw [if_neg hv]
  rfl

/-! ### Calls -/

/-- A function without parameters is entered, if there is room. -/
lemma goes_enter (h : Evaluates s env depth (.eval f) w (.function id c) w') (harity : c.arity = 0)
    (hroom : depth < maxDepth) (paren : Token) (ps : List Pending) :
    Goes s ⟨.eval (.call f paren []), ps, env, depth, w⟩
      ⟨.execAll c.decl.body, .leaveCall env c :: ps, w'.frames.next :: c.env, depth + 1,
        w'.addFrame []⟩ := by
  refine .step ((h (.callee paren [] :: ps)).trans (.step ⟨0, ?_⟩))
  change call s ⟨.value (.function id c), ps, env, depth, w'⟩ (.function id c) [] paren = _
  unfold call
  dsimp only [Value.arity?]
  rw [harity]
  dsimp only [List.length_nil]
  rw [if_pos rfl]
  unfold invoke enter
  dsimp only
  rw [if_neg (Nat.not_le_of_lt hroom)]
  unfold parameterFrame
  rw [List.zip_nil_right]
  rfl

lemma goes_leave (hc : c.isInitializer = false) (v : Value) (ps : List Pending) (w : World) :
    Goes s ⟨.value v, .leaveCall env c :: ps, env', depth + 1, w⟩
      ⟨.value .nil, ps, env, depth, w⟩ := by
  refine .step ⟨0, ?_⟩
  change leave ⟨.value v, ps, env', depth + 1, w⟩ env c .nil = _
  unfold leave
  dsimp only
  rw [hc]
  rfl

end Lox.Machine
