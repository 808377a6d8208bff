import Mathlib.Order.Monotone.Basic
import Mathlib.Tactic.Common
import Lox.Scope.Distances
import Lox.Proofs.Scope.Progress
import Lox.Proofs.Tables
import Lox.Proofs.Tree.Relabeling

/-!
Surveys at other numbers and lines, and after other surveys.

A survey compares names, and the lines of names where it puts them in order. So a tree with other
numbers, and with lines in the same order, gives rise to the same findings with those numbers and
lines. What was found before does not matter to it: only the open layers do, and the top level has
none.
-/

namespace Lox.Scope

variable (r : Relabeling)

def Local.relabel (v : Local) : Local := { v with name := v.name.relabel r }

def Layer.relabel (l : Layer) : Layer := Table.mapValues (Local.relabel r) l

def Lookup.relabel (l : Lookup) : Lookup := { l with id := r.node l.id }

/-- A survey at other numbers and lines, on top of what was found before. -/
def Survey.relabel (s before : Survey) : Survey where
  layers := s.layers.map (Layer.relabel r)
  lookups := s.lookups.map (Lookup.relabel r) ++ before.lookups
  complaints := s.complaints.map (Complaint.relabel r) ++ before.complaints

def Findings.relabel (x : Findings) : Findings where
  lookups := x.lookups.map (Lookup.relabel r)
  complaints := x.complaints.map (Complaint.relabel r)

/-- The findings on one thing, and then those on the next. -/
def Findings.andThen (x y : Findings) : Findings :=
  ⟨x.lookups ++ y.lookups, x.complaints ++ y.complaints⟩

variable {r}

/-! ### Layers -/

namespace Layer

lemma contains_relabel (l : Layer) (name : String) :
    Table.contains (l.relabel r) name = l.contains name := by
  rw [Table.contains, relabel, Table.get?_mapValues, Option.isSome_map, Table.contains]

lemma status?_relabel (l : Layer) (name : String) :
    (l.relabel r).status? name = l.status? name := by
  rw [status?, relabel, Table.get?_mapValues, Option.map_map, status?]
  rfl

lemma declare_relabel (l : Layer) (name : Token) :
    (l.relabel r).declare (name.relabel r) = (l.declare name).relabel r :=
  Table.insert_mapValues (f := Local.relabel r) (a := ⟨name, .declared⟩)

lemma mark_relabel (l : Layer) (name : String) (status : Status) :
    (l.relabel r).mark name status = (l.mark name status).relabel r := by
  unfold mark
  rw [relabel, Table.get?_mapValues]
  cases l.get? name with
  | none => rfl
  | some v => exact Table.insert_mapValues (a := { v with status })

/-- The names in a layer stay in order if the lines do. -/
lemma precedes_relabel (hr : StrictMono r.line) (a b : Token) :
    precedes (a.relabel r) (b.relabel r) = precedes a b := by
  change (decide (r.line a.line < r.line b.line) ||
    decide (r.line a.line = r.line b.line) && decide (a.lexeme < b.lexeme)) = _
  rw [decide_eq_decide.mpr hr.lt_iff_lt, decide_eq_decide.mpr hr.injective.eq_iff]
  rfl

lemma place_relabel (hr : StrictMono r.line) (t : Token) (ts : List Token) :
    place (t.relabel r) (ts.map (Token.relabel r)) = (place t ts).map (Token.relabel r) := by
  induction ts with
  | nil => rfl
  | cons u ts ih =>
    rw [List.map_cons, place, place, precedes_relabel hr, ih]
    split <;> rfl

lemma unread_cons (name : String) (v : Local) (l : Layer) :
    unread ((name, v) :: l) = if v.status = .defined then place v.name l.unread else l.unread := by
  unfold unread
  rw [List.filter_cons]
  by_cases h : v.status = .defined <;> simp [h]

lemma unread_relabel (hr : StrictMono r.line) (l : Layer) :
    (l.relabel r).unread = l.unread.map (Token.relabel r) := by
  induction l with
  | nil => rfl
  | cons p l ih =>
    obtain ⟨name, v⟩ := p
    have hrelabel : (relabel r ((name, v) :: l)).unread =
        if v.status = .defined then place (v.name.relabel r) (relabel r l).unread
        else (relabel r l).unread := unread_cons name (v.relabel r) (relabel r l)
    rw [hrelabel, unread_cons, ih, place_relabel hr]
    split <;> rfl

end Layer

/-! ### Single notes -/

namespace Survey

variable (s : Survey) {b : Survey}

lemma foldl_complain_relabel (ts : List Token) (f : Fault) :
    (ts.map (Token.relabel r)).foldl (·.complain · f) (s.relabel r b) =
      (ts.foldl (·.complain · f) s).relabel r b := by
  induction ts generalizing s with
  | nil => rfl
  | cons t ts ih => exact ih (s.complain t f)

lemma closeLayer_relabel (hr : StrictMono r.line) :
    (s.relabel r b).closeLayer = s.closeLayer.relabel r b := by
  obtain ⟨layers, ls, cs⟩ := s
  cases layers with
  | nil => rfl
  | cons l rest =>
    refine Eq.trans ?_ (foldl_complain_relabel ⟨rest, ls, cs⟩ l.unread .neverRead)
    rw [← Layer.unread_relabel hr]
    rfl

lemma declare_relabel (name : Token) :
    (s.relabel r b).declare (name.relabel r) = (s.declare name).relabel r b := by
  obtain ⟨layers, ls, cs⟩ := s
  cases layers with
  | nil => rfl
  | cons l rest =>
    change (if Table.contains (l.relabel r) name.lexeme then _ else _) = _
    rw [declare, Layer.contains_relabel, Layer.declare_relabel]
    dsimp only
    split <;> rfl

lemma define_relabel (name : Token) :
    (s.relabel r b).define (name.relabel r) = (s.define name).relabel r b := by
  obtain ⟨layers, ls, cs⟩ := s
  cases layers with
  | nil => rfl
  | cons l rest =>
    change (if (l.relabel r).status? name.lexeme = some .declared then _ else _) = _
    rw [define, Layer.status?_relabel, Layer.mark_relabel]
    dsimp only
    split <;> rfl

lemma introduce_relabel (name : Token) :
    (s.relabel r b).introduce (name.relabel r) = (s.introduce name).relabel r b := by
  rw [introduce, declare_relabel, define_relabel, introduce]

lemma depth?_relabel (name : String) : (s.relabel r b).depth? name = s.depth? name := by
  have h : (fun l => Table.contains l name) ∘ Layer.relabel r = (·.contains name) := by
    funext l
    exact Layer.contains_relabel l name
  exact (List.findIdx?_map ..).trans (congrArg (s.layers.findIdx? ·) h)

lemma modify_mark_relabel (ls : List Layer) (d : ℕ) (name : String) (status : Status) :
    (ls.map (Layer.relabel r)).modify d (·.mark name status) =
      (ls.modify d (·.mark name status)).map (Layer.relabel r) := by
  induction ls generalizing d with
  | nil => cases d <;> rfl
  | cons l ls ih =>
    cases d with
    | zero => exact congrArg (· :: _) (Layer.mark_relabel ..)
    | succ d => exact congrArg (_ :: ·) (ih d)

lemma refer_relabel (id : NodeId) (name : String) (reads : Bool) :
    (s.relabel r b).refer (r.node id) name reads = (s.refer id name reads).relabel r b := by
  unfold refer
  rw [depth?_relabel]
  cases s.depth? name with
  | none => rfl
  | some d =>
    cases reads with
    | false => rfl
    | true =>
      dsimp only [relabel]
      rw [modify_mark_relabel]
      rfl

lemma isWaiting_relabel (name : String) : (s.relabel r b).isWaiting name = s.isWaiting name := by
  obtain ⟨layers, ls, cs⟩ := s
  cases layers with
  | nil => rfl
  | cons l rest => exact congrArg (decide <| · = some .declared) (Layer.status?_relabel l name)

lemma readName_relabel (id : NodeId) (name : Token) :
    (s.relabel r b).readName (r.node id) (name.relabel r) = (s.readName id name).relabel r b := by
  unfold readName
  rw [Token.lexeme_relabel, isWaiting_relabel]
  split
  · exact refer_relabel (s.complain name .readInOwnInitializer) ..
  · exact refer_relabel ..

lemma returnPlace_relabel (ctx : Context) (keyword : Token) (value : Option Expr) :
    (s.relabel r b).returnPlace ctx (keyword.relabel r) (value.map (Expr.relabel r)) =
      (s.returnPlace ctx keyword value).relabel r b := by
  unfold returnPlace
  rw [Option.isSome_map]
  dsimp only
  split <;> split <;> rfl

/-! ### Trees -/

mutual

theorem expr_relabel (ctx : Context) : ∀ (e : Expr) (s : Survey),
    expr ctx (e.relabel r) (s.relabel r b) = (expr ctx e s).relabel r b
  | .literal _, _ => rfl
  | .group e, s => expr_relabel ctx e s
  | .unary _ e, s => expr_relabel ctx e s
  | .binary l _ e, s => by
    rw [Expr.relabel, expr, expr_relabel ctx l, expr_relabel ctx e, expr]
  | .logical l _ e, s => by
    rw [Expr.relabel, expr, expr_relabel ctx l, expr_relabel ctx e, expr]
  | .conditional c t e, s => by
    rw [Expr.relabel, expr, expr_relabel ctx c, expr_relabel ctx t, expr_relabel ctx e, expr]
  | .reference id name, s => readName_relabel s id name
  | .assign id name value, s => by
    rw [Expr.relabel, expr, expr_relabel ctx value]
    exact refer_relabel ..
  | .call callee _ arguments, s => by
    rw [Expr.relabel, expr, expr_relabel ctx callee, exprs_relabel ctx arguments, expr]
  | .property object _, s => expr_relabel ctx object s
  | .setProperty object _ value, s => by
    rw [Expr.relabel, expr, expr_relabel ctx value, expr_relabel ctx object, expr]
  | .this id keyword, s => by
    rw [Expr.relabel, expr, expr]
    split
    · exact refer_relabel ..
    · rfl

theorem exprs_relabel (ctx : Context) : ∀ (es : List Expr) (s : Survey),
    exprs ctx (Expr.relabelEach r es) (s.relabel r b) = (exprs ctx es s).relabel r b
  | [], _ => rfl
  | e :: es, s => by
    rw [Expr.relabelEach, exprs, expr_relabel ctx e, exprs_relabel ctx es, exprs]

end

lemma params_relabel (params : List Token) (s : Survey) :
    (params.map (Token.relabel r)).foldl (·.introduce ·) (s.relabel r b) =
      (params.foldl (·.introduce ·) s).relabel r b := by
  induction params generalizing s with
  | nil => rfl
  | cons p ps ih =>
    rw [List.map_cons, List.foldl_cons, introduce_relabel, ih, List.foldl_cons]

lemma methodBody_relabel (d : FunctionDecl) : methodBody (Stmt.relabelDecl r d) = methodBody d := by
  cases d
  rfl

lemma isEmpty_relabelDecls (ds : List FunctionDecl) :
    (Stmt.relabelDecls r ds).isEmpty = ds.isEmpty := by
  cases ds <;> rfl

mutual

theorem stmt_relabel (hr : StrictMono r.line) (ctx : Context) : ∀ (d : Stmt) (s : Survey),
    stmt ctx (d.relabel r) (s.relabel r b) = (stmt ctx d s).relabel r b
  | .expression e, s => expr_relabel ctx e s
  | .print e, s => expr_relabel ctx e s
  | .declare name none, s => introduce_relabel s name
  | .declare name (some e), s => by
    rw [Stmt.relabel, Option.map_some, stmt, declare_relabel, expr_relabel, define_relabel, stmt]
  | .block body, s => by
    rw [Stmt.relabel, stmt, stmt, ← closeLayer_relabel _ hr, ← stmts_relabel hr ctx body]
    rfl
  | .branch c t none, s => by
    rw [Stmt.relabel, stmt, expr_relabel, stmt_relabel hr ctx t, stmt]
  | .branch c t (some e), s => by
    rw [Stmt.relabel, stmt, expr_relabel, stmt_relabel hr ctx t, stmt_relabel hr ctx e, stmt]
  | .loop c body, s => by
    rw [Stmt.relabel, stmt, expr_relabel, stmt_relabel hr ctx body, stmt]
  | .breakLoop _, _ => rfl
  | .function d, s => by
    rw [Stmt.relabel, stmt, stmt, ← function_relabel hr ctx .function d, ← introduce_relabel]
    exact congrArg (fun name => function _ _ _ (introduce _ name)) (FunctionDecl.name_relabel r d)
  | .returnFrom keyword value, s => by
    have hplace := returnPlace_relabel (r := r) (b := b) s ctx keyword value
    cases value with
    | none => exact hplace
    | some e =>
      exact (congrArg _ hplace).trans (expr_relabel ctx e _)
  | .classDecl name methods statics, s => by
    have hmethods : (methodList { ctx with inClass := true } (Stmt.relabelDecls r methods)
        (((s.relabel r b).introduce (name.relabel r)).openLayer
          (.ofThis (name.relabel r)))).closeLayer =
          (methodList { ctx with inClass := true } methods
            ((s.introduce name).openLayer (.ofThis name))).closeLayer.relabel r b := by
      rw [introduce_relabel, ← closeLayer_relabel _ hr, ← methodList_relabel hr _ methods]
      rfl
    rw [Stmt.relabel, stmt, stmt, hmethods, isEmpty_relabelDecls]
    split
    · rfl
    · refine Eq.trans (congrArg closeLayer ?_) (closeLayer_relabel _ hr)
      exact staticList_relabel hr _ statics (openLayer _ (.ofThis name))

theorem stmts_relabel (hr : StrictMono r.line) (ctx : Context) : ∀ (body : List Stmt) (s : Survey),
    stmts ctx (Stmt.relabelEach r body) (s.relabel r b) = (stmts ctx body s).relabel r b
  | [], _ => rfl
  | d :: ds, s => by
    rw [Stmt.relabelEach, stmts, stmt_relabel hr ctx d, stmts_relabel hr ctx ds, stmts]

theorem function_relabel (hr : StrictMono r.line) (ctx : Context) (body : Body) :
    ∀ (d : FunctionDecl) (s : Survey),
      function ctx body (Stmt.relabelDecl r d) (s.relabel r b) = (function ctx body d s).relabel r b
  | .mk _ params code, s => by
    have hparams : (params.map (·.map (Token.relabel r))).getD [] =
        (params.getD []).map (Token.relabel r) := by
      cases params <;> rfl
    rw [Stmt.relabelDecl, function, function, hparams, ← closeLayer_relabel _ hr,
      ← stmts_relabel hr _ code, ← params_relabel]
    rfl

theorem methodList_relabel (hr : StrictMono r.line) (ctx : Context) :
    ∀ (ds : List FunctionDecl) (s : Survey),
      methodList ctx (Stmt.relabelDecls r ds) (s.relabel r b) = (methodList ctx ds s).relabel r b
  | [], _ => rfl
  | d :: ds, s => by
    rw [Stmt.relabelDecls, methodList, methodBody_relabel, function_relabel hr ctx _ d,
      methodList_relabel hr ctx ds, methodList]

theorem staticList_relabel (hr : StrictMono r.line) (ctx : Context) :
    ∀ (ds : List FunctionDecl) (s : Survey),
      staticList ctx (Stmt.relabelDecls r ds) (s.relabel r b) = (staticList ctx ds s).relabel r b
  | [], _ => rfl
  | d :: ds, s => by
    rw [Stmt.relabelDecls, staticList, function_relabel hr ctx _ d, staticList_relabel hr ctx ds,
      staticList]

end

lemma findings_relabel (s b : Survey) :
    (s.relabel r b).findings = b.findings.andThen (s.findings.relabel r) := by
  simp [findings, relabel, Findings.relabel, Findings.andThen]

lemma stmts_append (ctx : Context) (body more : List Stmt) (s : Survey) :
    stmts ctx (body ++ more) s = stmts ctx more (stmts ctx body s) := by
  induction body generalizing s with
  | nil => rfl
  | cons d ds ih => exact ih _

end Survey

/-- The findings on an input depend on numbers and lines as the input does. -/
theorem ofInput_relabel (hr : StrictMono r.line) (input : Grammar.Input) :
    ofInput (input.relabel r) = (ofInput input).relabel r := by
  cases input with
  | expression e =>
    exact (congrArg Survey.findings (Survey.expr_relabel (b := .empty) .outermost e .empty)).trans
      (Survey.findings_relabel _ .empty)
  | statements body =>
    have hbody := Survey.stmts_relabel (b := .empty) hr .outermost body .empty
    rw [Stmt.relabelEach_eq_map] at hbody
    exact (congrArg Survey.findings hbody).trans (Survey.findings_relabel _ .empty)

/-- The top level has no layer, and so the findings on one program do not depend on what stands
before it. -/
theorem ofProgram_append (body more : List Stmt) :
    ofProgram (body ++ more) = (ofProgram body).andThen (ofProgram more) := by
  have hlayers : (Survey.stmts .outermost body .empty).layers = [] :=
    List.forall₂_nil_left_iff.mp (Survey.leads_stmts .outermost body .empty).layers
  have hbefore : Survey.stmts .outermost body .empty =
      Survey.empty.relabel .same (Survey.stmts .outermost body .empty) := by
    generalize Survey.stmts .outermost body .empty = s at hlayers
    obtain ⟨layers, ls, cs⟩ := s
    subst hlayers
    rfl
  have hsame : Findings.relabel .same (ofProgram more) = ofProgram more := by
    rw [Findings.relabel, Complaint.relabel_eq_id _ rfl, List.map_id]
    exact congrArg (fun ls => Findings.mk ls _) (List.map_id _)
  have hmore := Survey.stmts_relabel (r := .same) (b := Survey.stmts .outermost body .empty)
    strictMono_id .outermost more .empty
  rw [Stmt.relabelEach_same, ← hbefore] at hmore
  rw [ofProgram, Survey.stmts_append, hmore, Survey.findings_relabel]
  exact congrArg _ hsame

end Lox.Scope
