import Lox.Machine.Run
import Lox.Proofs.Scope.Visits

/-!
Frames as activations of scopes.

A label says of a frame which scope it is an activation of. The labels are not part of the machine:
they are given out as frames are created, and a frame keeps its label. An environment mirrors a list
of scopes if its frames are activations of them, one by one, with the frame of the globals at the
end.
-/

namespace Lox.Machine

open Scope

/-- The scope that each frame is an activation of; the frame of the globals has none. -/
abbrev Labels := List (Option Region)

/-- The environment consists of an activation of each of the scopes, innermost first, and then of
the frame of the globals. -/
inductive Mirrors (labels : Labels) : Env → List Region → Prop
  | globals : Mirrors labels Env.globals []
  | cons {f env x xs} : labels[f]? = some (some x) → Mirrors labels env xs →
      Mirrors labels (f :: env) (x :: xs)

lemma label_of_grown {labels labels' : Labels} {f : FrameId} {l : Option Region}
    (h : labels[f]? = some l) (hl : labels <+: labels') : labels'[f]? = some l := by
  obtain ⟨more, rfl⟩ := hl
  rw [List.getElem?_append_left (List.getElem?_eq_some_iff.mp h).1]
  exact h

namespace Mirrors

variable {labels labels' : Labels} {env : Env} {xs : List Region} {x : Region}

lemma mono (h : Mirrors labels env xs) (hl : labels <+: labels') : Mirrors labels' env xs := by
  induction h with
  | globals => exact .globals
  | cons hf _ ih => exact .cons (label_of_grown hf hl) ih

/-- The frame that stands as far outward as a scope is an activation of it. -/
lemma getElem?_eq (h : Mirrors labels env xs) {d : ℕ} (hx : xs[d]? = some x) :
    ∃ f, env[d]? = some f ∧ labels[f]? = some (some x) := by
  induction h generalizing d with
  | globals => exact nomatch hx
  | cons hf _ ih =>
    cases d with
    | zero => exact ⟨_, rfl, Option.some.inj hx ▸ hf⟩
    | succ d => exact ih hx

end Mirrors

/-- What the state of a machine is judged by: the inputs accepted so far, the labels of the frames,
and the frames. -/
structure Scene where
  inputs : List Grammar.Input
  accepted : ∀ input ∈ inputs, Accepted input
  labels : Labels
  globals : labels[0]? = some none
  frames : Frames Value

/-- A node stands where a survey came to it with the given knowledge of names, and the environment
mirrors the scopes that were open there. -/
def Placed (x : Scene) (env : Env) (S : Shape) (n : Node) : Prop :=
  ∃ xs ctx s, Visited x.inputs xs n ctx s ∧ Mirrors x.labels env xs ∧ s.shape = S

/-- The same of a node that stands in one more scope, which has no frame yet. -/
def PlacedIn (x : Scene) (env : Env) (y : Region) (S : Shape) (n : Node) : Prop :=
  ∃ xs ctx s, Visited x.inputs (y :: xs) n ctx s ∧ Mirrors x.labels env xs ∧ s.shape = S

variable {x : Scene} {env : Env} {S : Shape} {n m : Node} {y : Region}

/-- An environment consists of frames that were given out. -/
lemma Mirrors.label {xs : List Region} {f : FrameId} (h : Mirrors x.labels env xs) (hf : f ∈ env) :
    f < x.labels.length := by
  induction h with
  | globals =>
    obtain rfl := List.mem_singleton.mp hf
    exact (List.getElem?_eq_some_iff.mp x.globals).1
  | cons hg _ ih =>
    rcases List.mem_cons.mp hf with rfl | hf
    · exact (List.getElem?_eq_some_iff.mp hg).1
    · exact ih hf

namespace Placed

lemma inside (h : Placed x env S n) (hin : ∀ ctx s, ∃ ctx' s', Inside n ctx s [] m ctx' s') :
    Placed x env (S.entering n m) m := by
  obtain ⟨xs, ctx, s, hv, hm, rfl⟩ := h
  obtain ⟨ctx', s', hi⟩ := hin ctx s
  have hv' := hv.inside hi
  have hn := hv.sound x.accepted
  exact ⟨xs, ctx', s', hv', hm, hi.shape_eq hn.orderly hn.fits (hv'.sound x.accepted).clean⟩

lemma opening {P : Region → Prop} (h : Placed x env S n)
    (hin : ∀ ctx s, ∃ y ctx' s', Inside n ctx s [y] m ctx' s' ∧ P y) :
    ∃ y, P y ∧ PlacedIn x env y (S.entering n m) m := by
  obtain ⟨xs, ctx, s, hv, hm, rfl⟩ := h
  obtain ⟨y, ctx', s', hi, hy⟩ := hin ctx s
  have hv' := hv.inside hi
  have hn := hv.sound x.accepted
  exact ⟨y, hy, xs, ctx', s', hv', hm, hi.shape_eq hn.orderly hn.fits (hv'.sound x.accepted).clean⟩

lemma fits (h : Placed x env S n) : n.Fits S := by
  obtain ⟨xs, ctx, s, hv, -, rfl⟩ := h
  exact (hv.sound x.accepted).fits

lemma orderly (h : Placed x env S n) : n.Orderly := by
  obtain ⟨xs, ctx, s, hv, -, rfl⟩ := h
  exact (hv.sound x.accepted).orderly

/-! ### Expressions -/

lemma each {es : List Expr} (h : Placed x env S (.exprs es)) :
    ∀ e ∈ es, Placed x env S (.expr e) := by
  induction es with
  | nil => exact nofun
  | cons e es ih =>
    refine List.forall_mem_cons.mpr ⟨?_, ih ?_⟩
    · exact h.inside (m := .expr e) fun _ _ => ⟨_, _, .firstExpr⟩
    · exact h.inside (m := .exprs es) fun _ _ => ⟨_, _, .laterExprs⟩

/-- The parts of an expression are placed like itself. -/
lemma part {e p : Expr} (h : Placed x env S (.expr e)) (hp : p ∈ e.parts) :
    Placed x env S (.expr p) :=
  (h.inside (m := .exprs e.parts) fun _ _ => ⟨_, _, .parts⟩).each p hp

/-! ### Statements -/

/-- So are the expressions that a statement begins with, -/
lemma head {d : Stmt} {e : Expr} (h : Placed x env S (.stmt d)) (he : e ∈ d.heads) :
    Placed x env S (.expr e) := by
  have hne : d.heads ≠ [] := List.ne_nil_of_mem he
  have hheads := h.inside (m := .exprs d.heads) fun _ _ => ⟨_, _, .heads hne⟩
  have hS : S.entering (.stmt d) (.exprs d.heads) = S := by
    cases d <;> first | rfl | exact absurd rfl hne
  exact (hS ▸ hheads).each e he

lemma first {d : Stmt} {ds : List Stmt} (h : Placed x env S (.stmts (d :: ds))) :
    Placed x env S (.stmt d) :=
  h.inside (m := .stmt d) fun _ _ => ⟨_, _, .firstStmt⟩

lemma later {d : Stmt} {ds : List Stmt} (h : Placed x env S (.stmts (d :: ds))) :
    Placed x env (S.after d) (.stmts ds) :=
  h.inside (m := .stmts ds) fun _ _ => ⟨_, _, .laterStmts⟩

lemma each_of_declared? {ds : List Stmt} (h : Placed x env S (.stmts ds))
    (hds : ∀ d ∈ ds, d.declared? = none) : ∀ d ∈ ds, Placed x env S (.stmt d) := by
  induction ds with
  | nil => exact nofun
  | cons d ds ih =>
    refine List.forall_mem_cons.mpr ⟨h.first, ih ?_ fun e he => hds e (List.mem_cons_of_mem _ he)⟩
    have hlater := h.later
    rwa [Shape.after_of_declared?_eq_none (hds d (List.mem_cons_self ..))] at hlater

/-- and the statements that it consists of, which declare nothing. -/
lemma branch {d b : Stmt} (h : Placed x env S (.stmt d)) (hb : b ∈ d.branches) :
    Placed x env S (.stmt b) ∧ b.declared? = none := by
  have hne : d.branches ≠ [] := List.ne_nil_of_mem hb
  have hbranches := h.inside (m := .stmts d.branches) fun _ _ => ⟨_, _, .branches hne⟩
  have hS : S.entering (.stmt d) (.stmts d.branches) = S := by
    cases d <;> first | rfl | exact absurd rfl hne
  have hnone : ∀ b ∈ d.branches, b.declared? = none :=
    Stmt.Orderly.declared?_branches h.orderly
  exact ⟨(hS ▸ hbranches).each_of_declared? hnone b hb, hnone b hb⟩

lemma returned {keyword : Token} {e : Expr}
    (h : Placed x env S (.stmt (.returnFrom keyword (some e)))) : Placed x env S (.expr e) :=
  h.inside (m := .expr e) fun _ _ => ⟨_, _, .returned⟩

lemma initial {name : Token} {e : Expr}
    (h : Placed x env S (.stmt (.declare name (some e)))) :
    Placed x env (S.put name.lexeme false) (.expr e) :=
  h.inside (m := .expr e) fun _ _ => ⟨_, _, .initial⟩

/-- A name is not declared before in the same scope. -/
lemma initial_new {name : Token} {e : Expr}
    (h : Placed x env S (.stmt (.declare name (some e)))) :
    ∀ l, S[0]? = some l → l name.lexeme = none := by
  obtain ⟨xs, ctx, s, hv, -, rfl⟩ := h
  have hclean := ((hv.inside .initial).sound x.accepted).clean
  have hnew := (Survey.shape_declare s name ((Survey.leads_expr ctx e _).clean hclean)).2
  rwa [← List.head?_eq_getElem?]

lemma block {body : List Stmt} (h : Placed x env S (.stmt (.block body))) :
    ∃ y, ¬y.IsThis ∧ PlacedIn x env y (Layer.standing [] :: S) (.stmts body) :=
  h.opening (m := .stmts body) fun _ _ => ⟨_, _, _, .block, not_false⟩

lemma function {d : FunctionDecl} (h : Placed x env S (.stmt (.function d))) :
    Placed x env (S.put d.name.lexeme true) (.function .function d) :=
  h.inside (m := .function .function d) fun _ _ => ⟨_, _, .function⟩

lemma body {b : Body} {d : FunctionDecl} (h : Placed x env S (.function b d)) :
    ∃ y, ¬y.IsThis ∧ PlacedIn x env y (Shape.afterParams (Layer.standing [] :: S) d.paramList)
      (.stmts d.body) :=
  h.opening (m := .stmts d.body) fun _ _ => ⟨_, _, _, .body, not_false⟩

lemma methods {name : Token} {ms ss : List FunctionDecl}
    (h : Placed x env S (.stmt (.classDecl name ms ss))) : ∃ y : Region, y.IsThis ∧
      PlacedIn x env y (Layer.thisStanding :: S.put name.lexeme true) (.methods ms) :=
  h.opening (m := .methods ms) fun _ _ => ⟨_, _, _, .methods, trivial⟩

lemma statics {name : Token} {ms ss : List FunctionDecl}
    (h : Placed x env S (.stmt (.classDecl name ms ss))) (hss : ss.isEmpty = false) :
    ∃ y : Region, y.IsThis ∧
      PlacedIn x env y (Layer.thisStanding :: S.put name.lexeme true) (.statics ss) :=
  h.opening (m := .statics ss) fun _ _ => ⟨_, _, _, .statics hss rfl, trivial⟩

/-- The current frame is that of the scope in which a statement declares its name. -/
lemma declared {f : FrameId} {d : Stmt} {name : Token} (h : Placed x (f :: env) S (.stmt d))
    (hd : d.declared? = some name) (hy : x.labels[f]? = some (some y)) :
    y.Declares name.lexeme ∧ ¬y.IsThis := by
  obtain ⟨xs, ctx, s, hv, hm, rfl⟩ := h
  cases hm with
  | globals =>
    rw [x.globals] at hy
    cases hy
  | @cons _ _ y' xs hf hm =>
    obtain rfl : y' = y := by simpa using hf.symm.trans hy
    refine ⟨?_, hv.not_isThis trivial y' rfl⟩
    have hsound := hv.sound x.accepted
    have hshape := Survey.shape_stmt ctx d hsound.orderly s hsound.fits hsound.clean
    obtain ⟨l, ls, hl, -, hlayers⟩ := List.forall₂_cons_left_iff.mp hsound.layers
    refine hl name.lexeme ?_
    have hlayers : (Survey.stmt ctx d s).layers = l :: ls := hlayers
    rw [Shape.after, hd, Survey.shape, hlayers] at hshape
    cases hS : s.shape with
    | nil => rw [hS] at hshape; cases hshape
    | cons m S =>
      rw [hS] at hshape
      obtain ⟨hstanding, -⟩ := List.cons.inj hshape
      rw [Layer.contains_iff_standing, hstanding]
      simp

end Placed

namespace PlacedIn

lemma inside (h : PlacedIn x env y S n)
    (hin : ∀ ctx s, ∃ ctx' s', Inside n ctx s [] m ctx' s') :
    PlacedIn x env y (S.entering n m) m := by
  obtain ⟨xs, ctx, s, hv, hm, rfl⟩ := h
  obtain ⟨ctx', s', hi⟩ := hin ctx s
  have hv' := hv.inside hi
  have hn := hv.sound x.accepted
  exact ⟨xs, ctx', s', hv', hm, hi.shape_eq hn.orderly hn.fits (hv'.sound x.accepted).clean⟩

/-- With a frame for the scope the node is placed. -/
lemma placed (h : PlacedIn x env y S n) {f : FrameId} (hf : x.labels[f]? = some (some y)) :
    Placed x (f :: env) S n := by
  obtain ⟨xs, ctx, s, hv, hm, rfl⟩ := h
  exact ⟨y :: xs, ctx, s, hv, .cons hf hm, rfl⟩

lemma declares {l : Standing} (h : PlacedIn x env y (l :: S) n) {name : String}
    (hl : l name ≠ none) : y.Declares name := by
  obtain ⟨xs, ctx, s, hv, hm, hs⟩ := h
  exact hv.declares x.accepted hs hl

/-- The methods of a class stand in a scope of their own. -/
lemma methods {ds : List FunctionDecl} (h : PlacedIn x env y S (.methods ds)) :
    ∀ d ∈ ds, PlacedIn x env y S (.function (Survey.methodBody d) d) := by
  induction ds with
  | nil => exact nofun
  | cons d ds ih =>
    refine List.forall_mem_cons.mpr ⟨?_, ih ?_⟩
    · exact h.inside (m := .function (Survey.methodBody d) d) fun _ _ => ⟨_, _, .firstMethod⟩
    · exact h.inside (m := .methods ds) fun _ _ => ⟨_, _, .laterMethods⟩

lemma statics {ds : List FunctionDecl} (h : PlacedIn x env y S (.statics ds)) :
    ∀ d ∈ ds, PlacedIn x env y S (.function .method d) := by
  induction ds with
  | nil => exact nofun
  | cons d ds ih =>
    refine List.forall_mem_cons.mpr ⟨?_, ih ?_⟩
    · exact h.inside (m := .function .method d) fun _ _ => ⟨_, _, .firstStatic⟩
    · exact h.inside (m := .statics ds) fun _ _ => ⟨_, _, .laterStatics⟩

end PlacedIn

end Lox.Machine
