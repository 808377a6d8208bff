import Lox.Proofs.Scope.Relabeling

/-!
Surveys that keep their context in their state.

A walk goes through a tree as a survey does, but the body and the class that it is in are part of
its state: it changes them where a function or a class begins, and sets them back at the end. So it
has to be shown that they are back, whatever was complained about in between, and that with them the
scopes are as they were, but for what was declared in the innermost one. At the top level there is
none, and so what a walk finds in two programs is what it finds in each of them.
-/

namespace Lox

namespace Table

variable {α : Type}

lemma keys_prefix_insert (t : Table α) (name : String) (a : α) :
    t.map Prod.fst <+: (t.insert name a).map Prod.fst := by
  induction t with
  | nil => exact List.nil_prefix
  | cons p t ih =>
    obtain ⟨n, b⟩ := p
    by_cases hn : n = name
    · subst hn
      simp [insert]
    · simpa [insert, hn] using ih

lemma keys_insert_of_get? {t : Table α} {name : String} {a b : α} (h : t.get? name = some b) :
    (t.insert name a).map Prod.fst = t.map Prod.fst := by
  induction t with
  | nil => exact nomatch h
  | cons p t ih =>
    obtain ⟨n, c⟩ := p
    by_cases hn : n = name
    · subst hn
      simp [insert]
    · simp only [get?, hn, if_false] at h
      simp [insert, hn, ih h]

end Table

namespace Scope

/-- The names declared in a layer, in the order of their declarations. -/
def Layer.names (l : Layer) : List String := l.map Prod.fst

namespace Survey

/-! ### Names in the layers -/

/-- The same layers are open, with the same names in them. -/
def Same (ls ls' : List Layer) : Prop := ls'.map Layer.names = ls.map Layer.names

/-- The same layers are open, with the same names in them, but the innermost one may have more. -/
inductive Widens : List Layer → List Layer → Prop
  | nil : Widens [] []
  | cons {l l' : Layer} {ls ls' : List Layer} : l.names <+: l'.names → Same ls ls' →
      Widens (l :: ls) (l' :: ls')

section
variable {l : Layer} {ls ls' ls'' : List Layer} {s s' s'' : Survey}

lemma Same.widens (h : Same ls ls') : Widens ls ls' := by
  cases ls with
  | nil =>
    obtain rfl : ls' = [] := List.map_eq_nil_iff.mp h
    exact .nil
  | cons l ls =>
    obtain ⟨l', rest, rfl, hl, hrest⟩ := List.map_eq_cons_iff.mp h
    exact .cons (hl ▸ List.prefix_rfl) hrest

lemma Widens.trans (h : Widens ls ls') (h' : Widens ls' ls'') : Widens ls ls'' := by
  cases h with
  | nil => exact h'
  | cons hl hls =>
    obtain - | ⟨hl', hls'⟩ := h'
    exact .cons (hl.trans hl') (hls'.trans hls)

lemma Widens.length_eq (h : Widens ls ls') : ls'.length = ls.length := by
  cases h with
  | nil => rfl
  | cons _ hls => simpa using congrArg List.length hls

lemma Widens.outer (h : Widens ls ls') :
    ls'.tail.map Layer.names = ls.tail.map Layer.names := by
  cases h with
  | nil => rfl
  | cons _ hls => exact hls

/-! ### What each note does to the layers -/

lemma names_mark (l : Layer) (x : String) (st : Status) : (l.mark x st).names = l.names := by
  unfold Layer.mark
  split
  · rename_i v hv
    exact Table.keys_insert_of_get? hv
  · rfl

lemma same_modify_mark (ls : List Layer) (d : ℕ) (x : String) (st : Status) :
    Same ls (ls.modify d (·.mark x st)) := by
  induction ls generalizing d with
  | nil => cases d <;> rfl
  | cons l ls ih =>
    cases d with
    | zero => exact congrArg (· :: _) (names_mark l x st)
    | succ d => exact congrArg (_ :: ·) (ih d)

lemma same_refer (s : Survey) (id : NodeId) (name : String) (reads : Bool) :
    Same s.layers (s.refer id name reads).layers := by
  unfold refer
  dsimp only
  split
  · exact same_modify_mark ..
  · rfl

lemma same_note (ctx : Context) (e : Expr) (s : Survey) : Same s.layers (s.note ctx e).layers := by
  cases e with
  | reference id name =>
    rw [note, readName]
    split
    · exact same_refer (s.complain name .readInOwnInitializer) id name.lexeme true
    · exact same_refer s id name.lexeme true
  | assign id name value => exact same_refer s id name.lexeme false
  | this id keyword =>
    rw [note]
    split
    · exact same_refer s id keyword.lexeme true
    · rfl
  | _ => rfl

lemma same_returnPlace (s : Survey) (ctx : Context) (keyword : Token) (value : Option Expr) :
    Same s.layers (s.returnPlace ctx keyword value).layers := by
  unfold returnPlace
  split <;> dsimp only <;> split <;> rfl

lemma widens_declare (s : Survey) (name : Token) : Widens s.layers (s.declare name).layers := by
  unfold declare
  split
  · exact Same.widens rfl
  · rename_i l rest hs
    split
    · exact Same.widens rfl
    · rw [hs]
      exact .cons (Table.keys_prefix_insert ..) rfl

lemma widens_define (s : Survey) (name : Token) : Widens s.layers (s.define name).layers := by
  unfold define
  split
  · exact Same.widens rfl
  · rename_i l rest hs
    split
    · rw [hs]
      exact Same.widens (congrArg (· :: _) (names_mark ..))
    · exact Same.widens rfl

lemma widens_introduce (s : Survey) (name : Token) : Widens s.layers (s.introduce name).layers :=
  (widens_declare s name).trans (widens_define _ name)

lemma widens_params (params : List Token) (s : Survey) :
    Widens s.layers (params.foldl (·.introduce ·) s).layers := by
  induction params generalizing s with
  | nil => exact Same.widens rfl
  | cons p ps ih => exact (widens_introduce s p).trans (ih _)

/-- What is declared in a layer is gone when it has been closed. -/
lemma Widens.closed (h : Widens (l :: ls) s'.layers) : Same ls s'.closeLayer.layers := by
  rw [layers_closeLayer]
  exact h.outer

/-! ### Trees -/

lemma same_exprs (ctx : Context) (es : List Expr)
    (h : ∀ e ∈ es, ∀ s : Survey, Same s.layers (expr ctx e s).layers) (s : Survey) :
    Same s.layers (exprs ctx es s).layers := by
  induction es generalizing s with
  | nil => rfl
  | cons e es ih =>
    have he := h e (List.mem_cons_self ..) s
    exact (ih (fun e he => h e (List.mem_cons_of_mem _ he)) _).trans he

/-- An expression declares nothing. -/
theorem same_expr (ctx : Context) (e : Expr) :
    ∀ s : Survey, Same s.layers (expr ctx e s).layers := by
  induction e using Expr.induction_parts with
  | h e ih =>
    intro s
    rw [expr_eq]
    exact (same_note ctx e _).trans (same_exprs ctx e.parts ih s)

mutual

/-- A statement may declare names in the innermost scope. -/
theorem widens_stmt (ctx : Context) :
    ∀ (d : Stmt) (s : Survey), Widens s.layers (stmt ctx d s).layers
  | .expression e, s => (same_expr ctx e s).widens
  | .print e, s => (same_expr ctx e s).widens
  | .declare name none, s => widens_introduce s name
  | .declare name (some e), s =>
    ((widens_declare s name).trans (same_expr ctx e _).widens).trans (widens_define _ name)
  | .block body, s => (widens_stmts ctx body (s.openLayer [])).closed.widens
  | .branch c t none, s => (same_expr ctx c s).widens.trans (widens_stmt ctx t _)
  | .branch c t (some e), s =>
    (same_expr ctx c s).widens.trans ((widens_stmt ctx t _).trans (widens_stmt ctx e _))
  | .loop c body, s => (same_expr ctx c s).widens.trans (widens_stmt ctx body _)
  | .breakLoop _, _ => Same.widens rfl
  | .function d, s => (widens_introduce s d.name).trans (same_function ctx .function d _).widens
  | .returnFrom keyword none, s => (same_returnPlace s ctx keyword none).widens
  | .returnFrom keyword (some e), s =>
    (same_returnPlace s ctx keyword (some e)).widens.trans (same_expr ctx e _).widens
  | .classDecl name methods statics, s => by
    have hclosed : ∀ {s s' : Survey}, Same (Layer.ofThis name :: s.layers) s'.layers →
        Widens s.layers s'.closeLayer.layers := fun h => h.widens.closed.widens
    have hmethods := hclosed (same_methodList { ctx with inClass := true } methods
      ((s.introduce name).openLayer (.ofThis name)))
    rw [stmt]
    split
    · exact (widens_introduce s name).trans hmethods
    · exact ((widens_introduce s name).trans hmethods).trans
        (hclosed (same_staticList { ctx with inClass := true } statics _))

theorem widens_stmts (ctx : Context) :
    ∀ (body : List Stmt) (s : Survey), Widens s.layers (stmts ctx body s).layers
  | [], _ => Same.widens rfl
  | d :: ds, s => (widens_stmt ctx d s).trans (widens_stmts ctx ds _)

theorem same_function (ctx : Context) (body : Body) :
    ∀ (d : FunctionDecl) (s : Survey), Same s.layers (function ctx body d s).layers
  | .mk _ params code, s =>
    ((widens_params (params.getD []) (s.openLayer [])).trans
      (widens_stmts { ctx with body } code _)).closed

theorem same_methodList (ctx : Context) :
    ∀ (ds : List FunctionDecl) (s : Survey), Same s.layers (methodList ctx ds s).layers
  | [], _ => rfl
  | d :: ds, s => (same_methodList ctx ds _).trans (same_function ctx (methodBody d) d s)

theorem same_staticList (ctx : Context) :
    ∀ (ds : List FunctionDecl) (s : Survey), Same s.layers (staticList ctx ds s).layers
  | [], _ => rfl
  | d :: ds, s => (same_staticList ctx ds _).trans (same_function ctx .method d s)

end

end

end Survey

/-! ### The context as a state -/

/-- A survey in progress, with the body and the class that it is in. -/
structure Walk where
  survey : Survey
  body : Body
  inClass : Bool

namespace Walk

/-- What the walk is within, as a survey is told. -/
def context (w : Walk) : Context := ⟨w.body, w.inClass⟩

/-- Before the first statement of a program. -/
def start : Walk := ⟨.empty, .topLevel, false⟩

def note (w : Walk) (f : Survey → Survey) : Walk := { w with survey := f w.survey }

def openLayer (w : Walk) (l : Layer) : Walk := w.note (·.openLayer l)

def closeLayer (w : Walk) : Walk := w.note Survey.closeLayer

mutual

def expr (w : Walk) : Expr → Walk
  | .literal _ => w
  | .group e => w.expr e
  | .unary _ e => w.expr e
  | .binary l _ r => (w.expr l).expr r
  | .logical l _ r => (w.expr l).expr r
  | .conditional c t e => ((w.expr c).expr t).expr e
  | .reference id name => w.note (·.readName id name)
  | .assign id name value => (w.expr value).note (·.refer id name.lexeme false)
  | .call callee _ arguments => (w.expr callee).exprs arguments
  | .property object _ => w.expr object
  | .setProperty object _ value => (w.expr value).expr object
  | .this id keyword =>
    if w.inClass then w.note (·.refer id keyword.lexeme true)
    else w.note (·.complain keyword .thisOutsideClass)

def exprs (w : Walk) : List Expr → Walk
  | [] => w
  | e :: es => (w.expr e).exprs es

end

/-- The context is looked at first, then the value. -/
def returnFrom (w : Walk) (keyword : Token) (value : Option Expr) : Walk :=
  let w := if w.body = .topLevel then w.note (·.complain keyword .returnFromTopLevel) else w
  match value with
  | none => w
  | some e =>
    let w := if w.body = .initializer then w.note (·.complain keyword .valueFromInitializer) else w
    w.expr e

mutual

def stmt (w : Walk) : Stmt → Walk
  | .expression e => w.expr e
  | .print e => w.expr e
  | .declare name none => w.note (·.introduce name)
  | .declare name (some e) => ((w.note (·.declare name)).expr e).note (·.define name)
  | .block body => ((w.openLayer []).stmts body).closeLayer
  | .branch c t none => (w.expr c).stmt t
  | .branch c t (some e) => ((w.expr c).stmt t).stmt e
  | .loop c body => (w.expr c).stmt body
  | .breakLoop _ => w
  | .function d => (w.note (·.introduce d.name)).function .function d
  | .returnFrom keyword value => w.returnFrom keyword value
  | .classDecl name methods statics =>
    let enclosing := w.inClass
    let w := { w with inClass := true }.note (·.introduce name)
    let w := ((w.openLayer (.ofThis name)).methodList methods).closeLayer
    let w := if statics.isEmpty then w
      else ((w.openLayer (.ofThis name)).staticList statics).closeLayer
    { w with inClass := enclosing }

def stmts (w : Walk) : List Stmt → Walk
  | [] => w
  | d :: ds => (w.stmt d).stmts ds

def function (w : Walk) (body : Body) : FunctionDecl → Walk
  | .mk _ params code =>
    let enclosing := w.body
    let w := { w with body }.openLayer []
    let w := ((w.note ((params.getD []).foldl (·.introduce ·))).stmts code).closeLayer
    { w with body := enclosing }

def methodList (w : Walk) : List FunctionDecl → Walk
  | [] => w
  | d :: ds => (w.function (Survey.methodBody d) d).methodList ds

def staticList (w : Walk) : List FunctionDecl → Walk
  | [] => w
  | d :: ds => (w.function .method d).staticList ds

end

/-! ### Surveys and walks -/

mutual

theorem expr_eq (w : Walk) : ∀ e : Expr, w.expr e = w.note (Survey.expr w.context e)
  | .literal _ => rfl
  | .group e => expr_eq w e
  | .unary _ e => expr_eq w e
  | .binary l _ r => by rw [expr, expr_eq w l, expr_eq _ r]; rfl
  | .logical l _ r => by rw [expr, expr_eq w l, expr_eq _ r]; rfl
  | .conditional c t e => by rw [expr, expr_eq w c, expr_eq _ t, expr_eq _ e]; rfl
  | .reference _ _ => rfl
  | .assign _ _ value => by rw [expr, expr_eq w value]; rfl
  | .call callee _ arguments => by rw [expr, expr_eq w callee, exprs_eq _ arguments]; rfl
  | .property object _ => expr_eq w object
  | .setProperty object _ value => by rw [expr, expr_eq w value, expr_eq _ object]; rfl
  | .this id keyword => by
    obtain ⟨s, body, inClass⟩ := w
    cases inClass <;> rfl

theorem exprs_eq (w : Walk) : ∀ es : List Expr, w.exprs es = w.note (Survey.exprs w.context es)
  | [] => rfl
  | e :: es => by rw [exprs, expr_eq w e, exprs_eq _ es]; rfl

end

lemma returnFrom_eq (w : Walk) (keyword : Token) (value : Option Expr) :
    w.returnFrom keyword value = w.note (Survey.stmt w.context (.returnFrom keyword value)) := by
  obtain ⟨s, body, inClass⟩ := w
  cases value with
  | none => cases body <;> rfl
  | some e =>
    unfold returnFrom
    dsimp only
    rw [expr_eq]
    cases body <;> rfl

mutual

theorem stmt_eq (w : Walk) : ∀ d : Stmt, w.stmt d = w.note (Survey.stmt w.context d)
  | .expression e => expr_eq w e
  | .print e => expr_eq w e
  | .declare _ none => rfl
  | .declare _ (some e) => by rw [stmt, expr_eq _ e]; rfl
  | .block body => by rw [stmt, stmts_eq _ body]; rfl
  | .branch c t none => by rw [stmt, expr_eq w c, stmt_eq _ t]; rfl
  | .branch c t (some e) => by rw [stmt, expr_eq w c, stmt_eq _ t, stmt_eq _ e]; rfl
  | .loop c body => by rw [stmt, expr_eq w c, stmt_eq _ body]; rfl
  | .breakLoop _ => rfl
  | .function d => by rw [stmt, function_eq _ .function d]; rfl
  | .returnFrom keyword value => returnFrom_eq w keyword value
  | .classDecl name methods statics => by
    rw [stmt, methodList_eq _ methods]
    split
    · rename_i h
      exact congrArg (Walk.mk · w.body w.inClass) (if_pos h).symm
    · rename_i h
      rw [staticList_eq _ statics]
      exact congrArg (Walk.mk · w.body w.inClass) (if_neg h).symm

theorem stmts_eq (w : Walk) : ∀ body : List Stmt,
    w.stmts body = w.note (Survey.stmts w.context body)
  | [] => rfl
  | d :: ds => by rw [stmts, stmt_eq w d, stmts_eq _ ds]; rfl

theorem function_eq (w : Walk) (body : Body) :
    ∀ d : FunctionDecl, w.function body d = w.note (Survey.function w.context body d)
  | .mk _ params code => by
    rw [function, stmts_eq _ code]
    rfl

theorem methodList_eq (w : Walk) :
    ∀ ds : List FunctionDecl, w.methodList ds = w.note (Survey.methodList w.context ds)
  | [] => rfl
  | d :: ds => by rw [methodList, function_eq w _ d, methodList_eq _ ds]; rfl

theorem staticList_eq (w : Walk) :
    ∀ ds : List FunctionDecl, w.staticList ds = w.note (Survey.staticList w.context ds)
  | [] => rfl
  | d :: ds => by rw [staticList, function_eq w _ d, staticList_eq _ ds]; rfl

end

/-! ### What a walk leaves as it found it -/

/-- The second walk is in the same body and class as the first, and in as many scopes. All of them
but the innermost declare what they declared before. -/
structure Restores (w w' : Walk) : Prop where
  body : w'.body = w.body
  inClass : w'.inClass = w.inClass
  height : w'.survey.layers.length = w.survey.layers.length
  outer : w'.survey.layers.tail.map Layer.names = w.survey.layers.tail.map Layer.names

lemma restores_note {w : Walk} {f : Survey → Survey}
    (h : Survey.Widens w.survey.layers (f w.survey).layers) : Restores w (w.note f) :=
  ⟨rfl, rfl, h.length_eq, h.outer⟩

end Walk

/-- A survey is homomorphic on the statements at the top level: the references and the complaints of
two programs in one are those of the first and then those of the second. A walk, which sets its body
and its class by hand, finds the same; whatever it comes by, and whatever is wrong there, it leaves
the body, the class and the number of scopes as it found them. A statement adds names to no scope
but the innermost, and an expression to none at all. -/
theorem findings_append_and_context_restored :
    (∀ body more : List Stmt,
      (ofProgram (body ++ more)).lookups = (ofProgram body).lookups ++ (ofProgram more).lookups ∧
      (ofProgram (body ++ more)).complaints =
        (ofProgram body).complaints ++ (ofProgram more).complaints) ∧
    (∀ body : List Stmt, ofProgram body = (Walk.start.stmts body).survey.findings) ∧
    (∀ (w : Walk) (d : Stmt), w.Restores (w.stmt d)) ∧
    (∀ (w : Walk) (e : Expr), w.Restores (w.expr e) ∧
      (w.expr e).survey.layers.map Layer.names = w.survey.layers.map Layer.names) := by
  refine ⟨fun body more => ?_, fun body => ?_, fun w d => ?_, fun w e => ?_⟩
  · rw [ofProgram_append]
    exact ⟨rfl, rfl⟩
  · rw [Walk.stmts_eq]
    rfl
  · rw [Walk.stmt_eq]
    exact Walk.restores_note (Survey.widens_stmt w.context d w.survey)
  · have hsame := Survey.same_expr w.context e w.survey
    rw [Walk.expr_eq]
    exact ⟨Walk.restores_note hsame.widens, hsame⟩

end Scope
end Lox
