import Lox.Proofs.Scope.Relabeling

/-!
Surveys at any other lines.

Lines matter to a survey in one place only, where the names of a scope that are never read are put
in order. If the lines do not stay in order, the same things are found, and the same complaints in
another order.
-/

namespace Lox.Scope

variable {r : Relabeling}

/-! ### Names that are never read -/

namespace Layer

lemma place_perm (t : Token) (ts : List Token) : (place t ts).Perm (t :: ts) := by
  induction ts with
  | nil => exact .refl _
  | cons u ts ih =>
    rw [place]
    split
    · exact (ih.cons u).trans (.swap t u ts)
    · exact .refl _

/-- The names that are never read, in the order of their declarations. -/
lemma unread_perm (l : Layer) :
    l.unread.Perm ((l.filter fun p => p.2.status = .defined).map fun p => p.2.name) := by
  induction l with
  | nil => exact .refl _
  | cons p l ih =>
    rw [unread_cons, List.filter_cons]
    by_cases h : p.2.status = .defined
    · simp only [h, if_true, decide_true, List.map_cons]
      exact (place_perm p.2.name (unread l)).trans (ih.cons _)
    · simpa [h] using ih

lemma unread_relabel_perm (l : Layer) :
    (l.relabel r).unread.Perm (l.unread.map (Token.relabel r)) := by
  refine (unread_perm (l.relabel r)).trans (List.Perm.trans ?_ ((unread_perm l).map _).symm)
  refine .of_eq ?_
  rw [relabel, Table.mapValues, List.filter_map, List.map_map, List.map_map]
  rfl

end Layer

namespace Survey

/-- The second survey has found what the first has, at other numbers and lines, and maybe with the
complaints in another order. -/
structure Like (r : Relabeling) (s s' : Survey) : Prop where
  layers : s'.layers = s.layers.map (Layer.relabel r)
  lookups : s'.lookups = s.lookups.map (Lookup.relabel r)
  complaints : s'.complaints.Perm (s.complaints.map (Complaint.relabel r))

variable {s s' : Survey}

lemma relabel_same (s : Survey) (cs : List Complaint) :
    s.relabel .same ⟨[], [], cs⟩ = ⟨s.layers, s.lookups, s.complaints ++ cs⟩ := by
  have hlayer : Layer.relabel .same = id := by
    funext l
    exact List.map_id _
  have hlookup : Lookup.relabel .same = id := rfl
  simp [relabel, hlayer, hlookup, Complaint.relabel_eq_id .same rfl]

/-- What has been complained of makes no difference to a survey. -/
lemma Like.of_relabel {f f' : Survey → Survey} (h : Like r s s')
    (hf : ∀ s b, f (s.relabel .same b) = (f s).relabel .same b)
    (hf' : ∀ s b, f' (s.relabel r b) = (f s).relabel r b) : Like r (f s) (f' s') := by
  obtain ⟨layers', lookups', complaints'⟩ := s'
  obtain ⟨hlayers, hlookups, hcomplaints⟩ := h
  dsimp only at hlayers hlookups hcomplaints
  subst hlayers hlookups
  -- both go on from the same survey, which has no complaints yet
  let t := f ⟨s.layers, s.lookups, []⟩
  have hfirst : f s = ⟨t.layers, t.lookups, t.complaints ++ s.complaints⟩ := by
    rw [← relabel_same, ← hf, relabel_same]
    rfl
  have hsecond : f' ⟨s.layers.map (Layer.relabel r), s.lookups.map (Lookup.relabel r),
      complaints'⟩ = t.relabel r ⟨[], [], complaints'⟩ := by
    rw [← hf']
    simp [relabel]
  rw [hfirst, hsecond]
  refine ⟨rfl, List.append_nil _, ?_⟩
  rw [List.map_append]
  exact hcomplaints.append_left _

lemma Like.expr (h : Like r s s') (ctx : Context) (e : Expr) :
    Like r (expr ctx e s) (Survey.expr ctx (e.relabel r) s') := by
  refine h.of_relabel (fun s b => ?_) fun s b => expr_relabel ctx e s
  have hsame := expr_relabel (r := .same) (b := b) ctx e s
  rwa [Expr.relabel_same] at hsame

lemma Like.declare (h : Like r s s') (name : Token) :
    Like r (s.declare name) (s'.declare (name.relabel r)) :=
  @Like.of_relabel r s s' (·.declare name) (·.declare (name.relabel r)) h
    (fun s _ => declare_relabel s name) fun s _ => declare_relabel s name

lemma Like.define (h : Like r s s') (name : Token) :
    Like r (s.define name) (s'.define (name.relabel r)) :=
  @Like.of_relabel r s s' (·.define name) (·.define (name.relabel r)) h
    (fun s _ => define_relabel s name) fun s _ => define_relabel s name

lemma Like.introduce (h : Like r s s') (name : Token) :
    Like r (s.introduce name) (s'.introduce (name.relabel r)) :=
  (h.declare name).define name

lemma Like.params (h : Like r s s') (params : List Token) :
    Like r (params.foldl (·.introduce ·) s)
      ((params.map (Token.relabel r)).foldl (·.introduce ·) s') := by
  induction params generalizing s s' with
  | nil => exact h
  | cons p ps ih => exact ih (h.introduce p)

lemma Like.returnPlace (h : Like r s s') (ctx : Context) (keyword : Token) (value : Option Expr) :
    Like r (s.returnPlace ctx keyword value)
      (s'.returnPlace ctx (keyword.relabel r) (value.map (Expr.relabel r))) := by
  refine @Like.of_relabel r s s' (·.returnPlace ctx keyword value)
    (·.returnPlace ctx (keyword.relabel r) (value.map (Expr.relabel r))) h (fun s b => ?_)
    fun s b => returnPlace_relabel s ctx keyword value
  have hsame := returnPlace_relabel (r := .same) (b := b) s ctx keyword value
  rwa [Stmt.optional_same] at hsame

lemma Like.openLayer (h : Like r s s') (l : Layer) :
    Like r (s.openLayer l) (s'.openLayer (l.relabel r)) where
  layers := congrArg (_ :: ·) h.layers
  lookups := h.lookups
  complaints := h.complaints

lemma complaints_foldl (ts : List Token) (f : Fault) (s : Survey) :
    (ts.foldl (·.complain · f) s).complaints =
      (ts.map fun t => Complaint.scope t.line (.of t) f).reverse ++ s.complaints := by
  induction ts generalizing s with
  | nil => rfl
  | cons t ts ih =>
    refine (ih (s.complain t f)).trans ?_
    simp [complain]

/-- Here the order of the complaints may be lost. -/
lemma Like.closeLayer (h : Like r s s') : Like r s.closeLayer s'.closeLayer where
  layers := by
    rw [layers_closeLayer, layers_closeLayer, h.layers, List.map_tail]
  lookups := by
    rw [lookups_closeLayer, lookups_closeLayer, h.lookups]
  complaints := by
    have hlayers := h.layers
    unfold Survey.closeLayer
    cases hs : s.layers with
    | nil =>
      rw [hs] at hlayers
      rw [hlayers]
      exact h.complaints
    | cons l ls =>
      rw [hs] at hlayers
      rw [hlayers]
      rw [List.map_cons]
      dsimp only
      rw [complaints_foldl, complaints_foldl, List.map_append, List.map_reverse, List.map_map]
      have hunread := (Layer.unread_relabel_perm (r := r) l).map
        fun t => Complaint.scope t.line (.of t) .neverRead
      rw [List.map_map] at hunread
      exact ((List.reverse_perm _).trans (hunread.trans (List.reverse_perm _).symm)).append
        h.complaints

/-! ### Trees -/

mutual

theorem like_stmt (ctx : Context) : ∀ (d : Stmt) {s s' : Survey}, Like r s s' →
    Like r (stmt ctx d s) (stmt ctx (d.relabel r) s')
  | .expression e, _, _, h => h.expr ctx e
  | .print e, _, _, h => h.expr ctx e
  | .declare name none, _, _, h => h.introduce name
  | .declare name (some e), _, _, h => ((h.declare name).expr ctx e).define name
  | .block body, _, _, h => (like_stmts ctx body (h.openLayer [])).closeLayer
  | .branch c t none, _, _, h => like_stmt ctx t (h.expr ctx c)
  | .branch c t (some e), _, _, h => like_stmt ctx e (like_stmt ctx t (h.expr ctx c))
  | .loop c body, _, _, h => like_stmt ctx body (h.expr ctx c)
  | .breakLoop _, _, _, h => h
  | .function d, s, s', h => by
    have hname := h.introduce d.name
    rw [← FunctionDecl.name_relabel] at hname
    exact like_function ctx .function d hname
  | .returnFrom keyword none, _, _, h => h.returnPlace ctx keyword none
  | .returnFrom keyword (some e), _, _, h => (h.returnPlace ctx keyword (some e)).expr ctx e
  | .classDecl name methods statics, s, s', h => by
    have hmethods := (like_methodList { ctx with inClass := true } methods
      ((h.introduce name).openLayer (.ofThis name))).closeLayer
    rw [Stmt.relabel, stmt, stmt, isEmpty_relabelDecls]
    split
    · exact hmethods
    · exact (like_staticList _ statics (hmethods.openLayer (.ofThis name))).closeLayer

theorem like_stmts (ctx : Context) : ∀ (body : List Stmt) {s s' : Survey}, Like r s s' →
    Like r (stmts ctx body s) (stmts ctx (Stmt.relabelEach r body) s')
  | [], _, _, h => h
  | d :: ds, _, _, h => like_stmts ctx ds (like_stmt ctx d h)

theorem like_function (ctx : Context) (body : Body) :
    ∀ (d : FunctionDecl) {s s' : Survey}, Like r s s' →
      Like r (function ctx body d s) (function ctx body (Stmt.relabelDecl r d) s')
  | .mk name params code, s, s', h => by
    have hparams : (params.map (·.map (Token.relabel r))).getD [] =
        (params.getD []).map (Token.relabel r) := by
      cases params <;> rfl
    rw [Stmt.relabelDecl, function, function, hparams]
    exact (like_stmts _ code ((h.openLayer []).params (params.getD []))).closeLayer

theorem like_methodList (ctx : Context) :
    ∀ (ds : List FunctionDecl) {s s' : Survey}, Like r s s' →
      Like r (methodList ctx ds s) (methodList ctx (Stmt.relabelDecls r ds) s')
  | [], _, _, h => h
  | d :: ds, s, s', h => by
    rw [Stmt.relabelDecls, methodList, methodList, methodBody_relabel]
    exact like_methodList ctx ds (like_function ctx (methodBody d) d h)

theorem like_staticList (ctx : Context) :
    ∀ (ds : List FunctionDecl) {s s' : Survey}, Like r s s' →
      Like r (staticList ctx ds s) (staticList ctx (Stmt.relabelDecls r ds) s')
  | [], _, _, h => h
  | d :: ds, _, _, h => like_staticList ctx ds (like_function ctx .method d h)

end

end Survey

/-- On an input at any other numbers and lines, the findings are the same but for the order of the
complaints. -/
theorem ofInput_relabel_perm (r : Relabeling) (input : Grammar.Input) :
    (ofInput (input.relabel r)).lookups = (ofInput input).lookups.map (Lookup.relabel r) ∧
      (ofInput (input.relabel r)).complaints.Perm
        ((ofInput input).complaints.map (Complaint.relabel r)) := by
  have hempty : Survey.Like r .empty .empty := ⟨rfl, rfl, .refl _⟩
  have hlike : ∀ {s s' : Survey}, Survey.Like r s s' →
      s'.findings.lookups = s.findings.lookups.map (Lookup.relabel r) ∧
        s'.findings.complaints.Perm (s.findings.complaints.map (Complaint.relabel r)) := by
    intro s s' h
    rw [Survey.findings, Survey.findings, h.lookups, List.map_reverse, List.map_reverse]
    exact ⟨rfl, (List.reverse_perm _).trans (h.complaints.trans (List.reverse_perm _).symm)⟩
  cases input with
  | expression e => exact hlike (hempty.expr .outermost e)
  | statements body =>
    have hbody := hlike (Survey.like_stmts .outermost body hempty)
    rwa [Stmt.relabelEach_eq_map] at hbody

end Lox.Scope
