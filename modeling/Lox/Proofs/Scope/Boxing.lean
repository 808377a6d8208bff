import Lox.Proofs.Scope.Visits

/-!
Trees in which some statements stand in blocks of their own.

A statement that declares nothing may as well stand in a block of its own. There is one more scope
around it then, in which nothing is declared, and what lies outside is found one scope farther
outward.
-/

namespace Lox

/-! ### Trees with other numbers -/

namespace Stmt

variable {d : Stmt} {ds : List Stmt} {f : FunctionDecl} {fs : List FunctionDecl}

lemma unnumbered_eq_expression {e : Expr} :
    d.unnumbered = expression e ↔ ∃ e', d = expression e' ∧ e'.unnumbered = e := by
  cases d with
  | branch c t e => cases e <;> simp [unnumbered]
  | _ => simp [unnumbered]

lemma unnumbered_eq_print {e : Expr} :
    d.unnumbered = print e ↔ ∃ e', d = print e' ∧ e'.unnumbered = e := by
  cases d with
  | branch c t e => cases e <;> simp [unnumbered]
  | _ => simp [unnumbered]

lemma unnumbered_eq_declare {name : Token} {initial : Option Expr} :
    d.unnumbered = declare name initial ↔
      ∃ initial', d = declare name initial' ∧ initial'.map Expr.unnumbered = initial := by
  cases d with
  | branch c t e => cases e <;> simp [unnumbered]
  | declare => simp [unnumbered, and_comm]
  | _ => simp [unnumbered]

lemma unnumbered_eq_block {body : List Stmt} :
    d.unnumbered = block body ↔ ∃ body', d = block body' ∧ unnumberedEach body' = body := by
  cases d with
  | branch c t e => cases e <;> simp [unnumbered]
  | _ => simp [unnumbered]

lemma unnumbered_eq_branch {c : Expr} {t : Stmt} {e : Option Stmt} :
    d.unnumbered = branch c t e ↔ ∃ c' t' e', d = branch c' t' e' ∧ c'.unnumbered = c ∧
      t'.unnumbered = t ∧ e'.map unnumbered = e := by
  cases d with
  | branch c t e => cases e <;> simp [unnumbered]
  | _ => simp [unnumbered]

lemma unnumbered_eq_loop {c : Expr} {body : Stmt} :
    d.unnumbered = loop c body ↔
      ∃ c' body', d = loop c' body' ∧ c'.unnumbered = c ∧ body'.unnumbered = body := by
  cases d with
  | branch c t e => cases e <;> simp [unnumbered]
  | _ => simp [unnumbered]

lemma unnumbered_eq_breakLoop {keyword : Token} :
    d.unnumbered = breakLoop keyword ↔ d = breakLoop keyword := by
  cases d with
  | branch c t e => cases e <;> simp [unnumbered]
  | _ => simp [unnumbered]

lemma unnumbered_eq_function {f : FunctionDecl} :
    d.unnumbered = function f ↔ ∃ f', d = function f' ∧ unnumberedDecl f' = f := by
  cases d with
  | branch c t e => cases e <;> simp [unnumbered]
  | _ => simp [unnumbered]

lemma unnumbered_eq_returnFrom {keyword : Token} {value : Option Expr} :
    d.unnumbered = returnFrom keyword value ↔
      ∃ value', d = returnFrom keyword value' ∧ value'.map Expr.unnumbered = value := by
  cases d with
  | branch c t e => cases e <;> simp [unnumbered]
  | returnFrom => simp [unnumbered, and_comm]
  | _ => simp [unnumbered]

lemma unnumbered_eq_classDecl {name : Token} {ms ss : List FunctionDecl} :
    d.unnumbered = classDecl name ms ss ↔ ∃ ms' ss', d = classDecl name ms' ss' ∧
      unnumberedDecls ms' = ms ∧ unnumberedDecls ss' = ss := by
  cases d with
  | branch c t e => cases e <;> simp [unnumbered]
  | classDecl => simp [unnumbered, and_comm]
  | _ => simp [unnumbered]

lemma unnumberedEach_eq_nil : unnumberedEach ds = [] ↔ ds = [] := by
  cases ds <;> simp [unnumberedEach]

lemma unnumberedEach_eq_cons {rest : List Stmt} : unnumberedEach ds = d :: rest ↔
    ∃ d' rest', ds = d' :: rest' ∧ d'.unnumbered = d ∧ unnumberedEach rest' = rest := by
  cases ds <;> simp [unnumberedEach]

lemma unnumberedDecl_eq_mk {name : Token} {params : Option (List Token)} {body : List Stmt} :
    unnumberedDecl f = .mk name params body ↔
      ∃ body', f = .mk name params body' ∧ unnumberedEach body' = body := by
  cases f
  simp [unnumberedDecl, and_comm, and_assoc]

lemma unnumberedDecls_eq_nil : unnumberedDecls fs = [] ↔ fs = [] := by
  cases fs <;> simp [unnumberedDecls]

lemma unnumberedDecls_eq_cons {rest : List FunctionDecl} : unnumberedDecls fs = f :: rest ↔
    ∃ f' rest', fs = f' :: rest' ∧ unnumberedDecl f' = f ∧ unnumberedDecls rest' = rest := by
  cases fs <;> simp [unnumberedDecls]

end Stmt

namespace Scope

/-- The node with the numbers in it forgotten. -/
def Node.unnumbered : Node → Node
  | expr e => expr e.unnumbered
  | exprs es => exprs (Expr.unnumberedEach es)
  | stmt d => stmt d.unnumbered
  | stmts body => stmts (Stmt.unnumberedEach body)
  | function sort d => function sort (Stmt.unnumberedDecl d)
  | methods ds => methods (Stmt.unnumberedDecls ds)
  | statics ds => statics (Stmt.unnumberedDecls ds)

namespace Node

variable {n : Node}

lemma unnumbered_eq_expr {e : Expr} :
    n.unnumbered = (expr e).unnumbered ↔ ∃ e', n = expr e' ∧ e'.unnumbered = e.unnumbered := by
  cases n <;> simp [unnumbered]

lemma unnumbered_eq_exprs {es : List Expr} : n.unnumbered = (exprs es).unnumbered ↔
    ∃ es', n = exprs es' ∧ Expr.unnumberedEach es' = Expr.unnumberedEach es := by
  cases n <;> simp [unnumbered]

lemma unnumbered_eq_stmt {d : Stmt} :
    n.unnumbered = (stmt d).unnumbered ↔ ∃ d', n = stmt d' ∧ d'.unnumbered = d.unnumbered := by
  cases n <;> simp [unnumbered]

lemma unnumbered_eq_stmts {ds : List Stmt} : n.unnumbered = (stmts ds).unnumbered ↔
    ∃ ds', n = stmts ds' ∧ Stmt.unnumberedEach ds' = Stmt.unnumberedEach ds := by
  cases n <;> simp [unnumbered]

lemma unnumbered_eq_function {sort : Body} {f : FunctionDecl} :
    n.unnumbered = (function sort f).unnumbered ↔
      ∃ f', n = function sort f' ∧ Stmt.unnumberedDecl f' = Stmt.unnumberedDecl f := by
  cases n <;> simp [unnumbered]

lemma unnumbered_eq_methods {fs : List FunctionDecl} : n.unnumbered = (methods fs).unnumbered ↔
    ∃ fs', n = methods fs' ∧ Stmt.unnumberedDecls fs' = Stmt.unnumberedDecls fs := by
  cases n <;> simp [unnumbered]

lemma unnumbered_eq_statics {fs : List FunctionDecl} : n.unnumbered = (statics fs).unnumbered ↔
    ∃ fs', n = statics fs' ∧ Stmt.unnumberedDecls fs' = Stmt.unnumberedDecls fs := by
  cases n <;> simp [unnumbered]

end Node

/-- How far outward a scope is found, where scopes were added. The marks say of the scopes around,
innermost first, which of them were. -/
def outward : List Bool → ℕ → ℕ
  | [], d => d
  | true :: marks, d => outward marks d + 1
  | false :: _, 0 => 0
  | false :: marks, d + 1 => outward marks d + 1

/-- The innermost scope was not added, so that something may be declared there. -/
def Firm (marks : List Bool) : Prop := marks.head? ≠ some true

lemma firm_nil : Firm [] := nofun

lemma firm_cons {marks : List Bool} : Firm (false :: marks) := nofun

lemma firm_replicate (k : ℕ) : Firm (List.replicate k false) := by
  cases k with
  | zero => exact firm_nil
  | succ k => exact firm_cons

lemma outward_zero {marks : List Bool} (h : Firm marks) : outward marks 0 = 0 := by
  match marks with
  | [] => rfl
  | false :: _ => rfl
  | true :: _ => exact absurd rfl h

/-- Where no scope was added, everything is as far outward as before. -/
lemma outward_replicate (k d : ℕ) : outward (List.replicate k false) d = d := by
  induction k generalizing d with
  | zero => rfl
  | succ k ih =>
    cases d with
    | zero => rfl
    | succ d => exact congrArg (· + 1) (ih d)

/-- The second node is the first one with some statements in blocks of their own. The numbers of
references may be others, and `P` says of them what they have to do with each other among scopes
with such marks. -/
inductive Node.Boxed (P : List Bool → NodeId → NodeId → Prop) : List Bool → Node → Node → Prop
  -- expressions
  | literal {marks l} : Boxed P marks (.expr (.literal l)) (.expr (.literal l))
  | group {marks e e'} : Boxed P marks (.expr e) (.expr e') →
      Boxed P marks (.expr (.group e)) (.expr (.group e'))
  | unary {marks op e e'} : Boxed P marks (.expr e) (.expr e') →
      Boxed P marks (.expr (.unary op e)) (.expr (.unary op e'))
  | binary {marks l l' op e e'} : Boxed P marks (.expr l) (.expr l') →
      Boxed P marks (.expr e) (.expr e') →
      Boxed P marks (.expr (.binary l op e)) (.expr (.binary l' op e'))
  | logical {marks l l' op e e'} : Boxed P marks (.expr l) (.expr l') →
      Boxed P marks (.expr e) (.expr e') →
      Boxed P marks (.expr (.logical l op e)) (.expr (.logical l' op e'))
  | conditional {marks c c' t t' e e'} : Boxed P marks (.expr c) (.expr c') →
      Boxed P marks (.expr t) (.expr t') → Boxed P marks (.expr e) (.expr e') →
      Boxed P marks (.expr (.conditional c t e)) (.expr (.conditional c' t' e'))
  | reference {marks id id' name} : P marks id id' →
      Boxed P marks (.expr (.reference id name)) (.expr (.reference id' name))
  | assign {marks id id' name e e'} : P marks id id' → Boxed P marks (.expr e) (.expr e') →
      Boxed P marks (.expr (.assign id name e)) (.expr (.assign id' name e'))
  | call {marks f f' paren es es'} : Boxed P marks (.expr f) (.expr f') →
      Boxed P marks (.exprs es) (.exprs es') →
      Boxed P marks (.expr (.call f paren es)) (.expr (.call f' paren es'))
  | property {marks e e' name} : Boxed P marks (.expr e) (.expr e') →
      Boxed P marks (.expr (.property e name)) (.expr (.property e' name))
  | setProperty {marks o o' name e e'} : Boxed P marks (.expr o) (.expr o') →
      Boxed P marks (.expr e) (.expr e') →
      Boxed P marks (.expr (.setProperty o name e)) (.expr (.setProperty o' name e'))
  | this {marks id id' keyword} : P marks id id' →
      Boxed P marks (.expr (.this id keyword)) (.expr (.this id' keyword))
  | noExprs {marks} : Boxed P marks (.exprs []) (.exprs [])
  | exprs {marks e e' es es'} : Boxed P marks (.expr e) (.expr e') →
      Boxed P marks (.exprs es) (.exprs es') → Boxed P marks (.exprs (e :: es)) (.exprs (e' :: es'))
  -- statements
  | expression {marks e e'} : Boxed P marks (.expr e) (.expr e') →
      Boxed P marks (.stmt (.expression e)) (.stmt (.expression e'))
  | print {marks e e'} : Boxed P marks (.expr e) (.expr e') →
      Boxed P marks (.stmt (.print e)) (.stmt (.print e'))
  | bare {marks name} : Firm marks →
      Boxed P marks (.stmt (.declare name none)) (.stmt (.declare name none))
  | initialized {marks name e e'} : Firm marks → Boxed P marks (.expr e) (.expr e') →
      Boxed P marks (.stmt (.declare name (some e))) (.stmt (.declare name (some e')))
  | block {marks body body'} : Boxed P (false :: marks) (.stmts body) (.stmts body') →
      Boxed P marks (.stmt (.block body)) (.stmt (.block body'))
  | ifThen {marks c c' t t'} : Boxed P marks (.expr c) (.expr c') →
      Boxed P marks (.stmt t) (.stmt t') →
      Boxed P marks (.stmt (.branch c t none)) (.stmt (.branch c' t' none))
  | ifElse {marks c c' t t' e e'} : Boxed P marks (.expr c) (.expr c') →
      Boxed P marks (.stmt t) (.stmt t') → Boxed P marks (.stmt e) (.stmt e') →
      Boxed P marks (.stmt (.branch c t (some e))) (.stmt (.branch c' t' (some e')))
  | loop {marks c c' body body'} : Boxed P marks (.expr c) (.expr c') →
      Boxed P marks (.stmt body) (.stmt body') →
      Boxed P marks (.stmt (.loop c body)) (.stmt (.loop c' body'))
  | breakLoop {marks keyword} :
      Boxed P marks (.stmt (.breakLoop keyword)) (.stmt (.breakLoop keyword))
  | function {marks d d'} : Firm marks →
      Boxed P marks (.function .function d) (.function .function d') →
      Boxed P marks (.stmt (.function d)) (.stmt (.function d'))
  | returnNothing {marks keyword} :
      Boxed P marks (.stmt (.returnFrom keyword none)) (.stmt (.returnFrom keyword none))
  | returnValue {marks keyword e e'} : Boxed P marks (.expr e) (.expr e') →
      Boxed P marks (.stmt (.returnFrom keyword (some e))) (.stmt (.returnFrom keyword (some e')))
  | classDecl {marks name ms ms' ss ss'} : Firm marks →
      Boxed P (false :: marks) (.methods ms) (.methods ms') →
      Boxed P (false :: marks) (.statics ss) (.statics ss') →
      Boxed P marks (.stmt (.classDecl name ms ss)) (.stmt (.classDecl name ms' ss'))
  /-- A block of its own. -/
  | boxed {marks d d'} : Boxed P (true :: marks) (.stmt d) (.stmt d') →
      Boxed P marks (.stmt d) (.stmt (.block [d']))
  -- several statements
  | nil {marks} : Boxed P marks (.stmts []) (.stmts [])
  | cons {marks d d' ds ds'} : Boxed P marks (.stmt d) (.stmt d') →
      Boxed P marks (.stmts ds) (.stmts ds') →
      Boxed P marks (.stmts (d :: ds)) (.stmts (d' :: ds'))
  -- functions
  | body {marks sort name params code code'} :
      Boxed P (false :: marks) (.stmts code) (.stmts code') →
      Boxed P marks (.function sort (.mk name params code)) (.function sort (.mk name params code'))
  | noMethods {marks} : Boxed P marks (.methods []) (.methods [])
  | method {marks d d' ds ds'} :
      Boxed P marks (.function (Survey.methodBody d) d) (.function (Survey.methodBody d) d') →
      Boxed P marks (.methods ds) (.methods ds') →
      Boxed P marks (.methods (d :: ds)) (.methods (d' :: ds'))
  | noStatics {marks} : Boxed P marks (.statics []) (.statics [])
  | static {marks d d' ds ds'} : Boxed P marks (.function .method d) (.function .method d') →
      Boxed P marks (.statics ds) (.statics ds') →
      Boxed P marks (.statics (d :: ds)) (.statics (d' :: ds'))

variable {P : List Bool → NodeId → NodeId → Prop} {marks : List Bool}

/-! ### Other numbers -/

namespace Node.Boxed

mutual

/-- Expressions are not changed but for their numbers. -/
theorem expr_unnumbered :
    ∀ {e e' : Expr}, Node.Boxed P marks (.expr e) (.expr e') → e'.unnumbered = e.unnumbered
  | .literal _, _, .literal => rfl
  | .group e, _, .group h => by simp [Expr.unnumbered, expr_unnumbered h]
  | .unary _ e, _, .unary h => by simp [Expr.unnumbered, expr_unnumbered h]
  | .binary l _ e, _, .binary hl he => by
    simp [Expr.unnumbered, expr_unnumbered hl, expr_unnumbered he]
  | .logical l _ e, _, .logical hl he => by
    simp [Expr.unnumbered, expr_unnumbered hl, expr_unnumbered he]
  | .conditional c t e, _, .conditional hc ht he => by
    simp [Expr.unnumbered, expr_unnumbered hc, expr_unnumbered ht, expr_unnumbered he]
  | .reference _ _, _, .reference _ => rfl
  | .assign _ _ e, _, .assign _ h => by simp [Expr.unnumbered, expr_unnumbered h]
  | .call f _ es, _, .call hf hes => by
    simp [Expr.unnumbered, expr_unnumbered hf, exprs_unnumbered hes]
  | .property e _, _, .property h => by simp [Expr.unnumbered, expr_unnumbered h]
  | .setProperty o _ e, _, .setProperty ho he => by
    simp [Expr.unnumbered, expr_unnumbered ho, expr_unnumbered he]
  | .this _ _, _, .this _ => rfl

theorem exprs_unnumbered : ∀ {es es' : List Expr}, Node.Boxed P marks (.exprs es) (.exprs es') →
    Expr.unnumberedEach es' = Expr.unnumberedEach es
  | [], _, .noExprs => rfl
  | e :: es, _, .exprs he hes => by
    simp [Expr.unnumberedEach, expr_unnumbered he, exprs_unnumbered hes]

end

/-- Nothing is said of the numbers. -/
abbrev Anyhow : List Bool → NodeId → NodeId → Prop := fun _ _ _ => True

mutual

theorem expr_of_unnumbered : ∀ (e e' : Expr), e'.unnumbered = e.unnumbered →
    Node.Boxed Anyhow marks (.expr e) (.expr e')
  | .literal _, e', h => by
    cases e' <;> simp [Expr.unnumbered] at h
    exact h ▸ .literal
  | .group e, e', h => by
    cases e' <;> simp [Expr.unnumbered] at h
    exact .group (expr_of_unnumbered e _ h)
  | .unary _ e, e', h => by
    cases e' <;> simp [Expr.unnumbered] at h
    obtain ⟨rfl, h⟩ := h
    exact .unary (expr_of_unnumbered e _ h)
  | .binary l _ e, e', h => by
    cases e' <;> simp [Expr.unnumbered] at h
    obtain ⟨hl, rfl, he⟩ := h
    exact .binary (expr_of_unnumbered l _ hl) (expr_of_unnumbered e _ he)
  | .logical l _ e, e', h => by
    cases e' <;> simp [Expr.unnumbered] at h
    obtain ⟨hl, rfl, he⟩ := h
    exact .logical (expr_of_unnumbered l _ hl) (expr_of_unnumbered e _ he)
  | .conditional c t e, e', h => by
    cases e' <;> simp [Expr.unnumbered] at h
    obtain ⟨hc, ht, he⟩ := h
    exact .conditional (expr_of_unnumbered c _ hc) (expr_of_unnumbered t _ ht)
      (expr_of_unnumbered e _ he)
  | .reference _ _, e', h => by
    cases e' <;> simp [Expr.unnumbered] at h
    exact h ▸ .reference trivial
  | .assign _ _ e, e', h => by
    cases e' <;> simp [Expr.unnumbered] at h
    obtain ⟨rfl, h⟩ := h
    exact .assign trivial (expr_of_unnumbered e _ h)
  | .call f _ es, e', h => by
    cases e' <;> simp [Expr.unnumbered] at h
    obtain ⟨hf, rfl, hes⟩ := h
    exact .call (expr_of_unnumbered f _ hf) (exprs_of_unnumbered es _ hes)
  | .property e _, e', h => by
    cases e' <;> simp [Expr.unnumbered] at h
    obtain ⟨h, rfl⟩ := h
    exact .property (expr_of_unnumbered e _ h)
  | .setProperty o _ e, e', h => by
    cases e' <;> simp [Expr.unnumbered] at h
    obtain ⟨ho, rfl, he⟩ := h
    exact .setProperty (expr_of_unnumbered o _ ho) (expr_of_unnumbered e _ he)
  | .this _ _, e', h => by
    cases e' <;> simp [Expr.unnumbered] at h
    exact h ▸ .this trivial

theorem exprs_of_unnumbered :
    ∀ es es' : List Expr, Expr.unnumberedEach es' = Expr.unnumberedEach es →
      Node.Boxed Anyhow marks (.exprs es) (.exprs es')
  | [], es', h => by
    cases es' <;> simp [Expr.unnumberedEach] at h
    exact .noExprs
  | e :: es, es', h => by
    cases es' <;> simp [Expr.unnumberedEach] at h
    exact .exprs (expr_of_unnumbered e _ h.1) (exprs_of_unnumbered es _ h.2)

end

/-! ### Nothing is boxed -/

lemma expr_refl (e : Expr) : Node.Boxed Anyhow marks (.expr e) (.expr e) :=
  expr_of_unnumbered e e rfl

mutual

theorem stmt_refl {marks : List Bool} (hm : Firm marks) :
    ∀ d : Stmt, Node.Boxed Anyhow marks (.stmt d) (.stmt d)
  | .expression e => .expression (expr_refl e)
  | .print e => .print (expr_refl e)
  | .declare _ none => .bare hm
  | .declare _ (some e) => .initialized hm (expr_refl e)
  | .block code => .block (stmts_refl firm_cons code)
  | .branch c t none => .ifThen (expr_refl c) (stmt_refl hm t)
  | .branch c t (some e) => .ifElse (expr_refl c) (stmt_refl hm t) (stmt_refl hm e)
  | .loop c code => .loop (expr_refl c) (stmt_refl hm code)
  | .breakLoop _ => .breakLoop
  | .function d => .function hm (function_refl .function d)
  | .returnFrom _ none => .returnNothing
  | .returnFrom _ (some e) => .returnValue (expr_refl e)
  | .classDecl _ ms ss => .classDecl hm (methods_refl ms) (statics_refl ss)

theorem stmts_refl {marks : List Bool} (hm : Firm marks) :
    ∀ code : List Stmt, Node.Boxed Anyhow marks (.stmts code) (.stmts code)
  | [] => .nil
  | d :: ds => .cons (stmt_refl hm d) (stmts_refl hm ds)

theorem function_refl {marks : List Bool} (sort : Body) :
    ∀ d : FunctionDecl, Node.Boxed Anyhow marks (.function sort d) (.function sort d)
  | .mk _ _ code => .body (stmts_refl firm_cons code)

theorem methods_refl {marks : List Bool} :
    ∀ ds : List FunctionDecl, Node.Boxed Anyhow marks (.methods ds) (.methods ds)
  | [] => .noMethods
  | d :: ds => .method (function_refl _ d) (methods_refl ds)

theorem statics_refl {marks : List Bool} :
    ∀ ds : List FunctionDecl, Node.Boxed Anyhow marks (.statics ds) (.statics ds)
  | [] => .noStatics
  | d :: ds => .static (function_refl _ d) (statics_refl ds)

end

/-! ### The same up to numbers -/

/-- A method of that name has the same sort of body. -/
lemma methodBody_of_unnumbered {f g : FunctionDecl}
    (h : Stmt.unnumberedDecl f = Stmt.unnumberedDecl g) :
    Survey.methodBody f = Survey.methodBody g := by
  obtain ⟨name, params, code⟩ := f
  obtain ⟨name', params', code'⟩ := g
  simp only [Stmt.unnumberedDecl, FunctionDecl.mk.injEq] at h
  obtain ⟨rfl, -, -⟩ := h
  rfl

/-- What the statement is does not depend on its numbers. -/
theorem congr {n m n' m' : Node} (h : Node.Boxed P marks n m) (hn : n'.unnumbered = n.unnumbered)
    (hm : m'.unnumbered = m.unnumbered) : Node.Boxed Anyhow marks n' m' := by
  have hexpr {marks : List Bool} {e e' : Expr} {n' m' : Node}
      (h : Node.Boxed P marks (.expr e) (.expr e'))
      (hn : n'.unnumbered = (Node.expr e).unnumbered)
      (hm : m'.unnumbered = (Node.expr e').unnumbered) : Node.Boxed Anyhow marks n' m' := by
    obtain ⟨a, rfl, ha⟩ := Node.unnumbered_eq_expr.mp hn
    obtain ⟨b, rfl, hb⟩ := Node.unnumbered_eq_expr.mp hm
    exact expr_of_unnumbered a b (by rw [hb, ha, expr_unnumbered h])
  induction h generalizing n' m' with
  | literal => exact hexpr .literal hn hm
  | group h => exact hexpr (.group h) hn hm
  | unary h => exact hexpr (.unary h) hn hm
  | binary hl he => exact hexpr (.binary hl he) hn hm
  | logical hl he => exact hexpr (.logical hl he) hn hm
  | conditional hc ht he => exact hexpr (.conditional hc ht he) hn hm
  | reference h => exact hexpr (.reference h) hn hm
  | assign hid h => exact hexpr (.assign hid h) hn hm
  | call hf hes => exact hexpr (.call hf hes) hn hm
  | property h => exact hexpr (.property h) hn hm
  | setProperty ho he => exact hexpr (.setProperty ho he) hn hm
  | this h => exact hexpr (.this h) hn hm
  | noExprs =>
    obtain ⟨a, rfl, ha⟩ := Node.unnumbered_eq_exprs.mp hn
    obtain ⟨b, rfl, hb⟩ := Node.unnumbered_eq_exprs.mp hm
    exact exprs_of_unnumbered a b (by rw [hb, ha])
  | exprs he hes =>
    obtain ⟨a, rfl, ha⟩ := Node.unnumbered_eq_exprs.mp hn
    obtain ⟨b, rfl, hb⟩ := Node.unnumbered_eq_exprs.mp hm
    exact exprs_of_unnumbered a b (by rw [hb, ha, exprs_unnumbered (.exprs he hes)])
  | expression _ ih =>
    obtain ⟨_, rfl, h₁⟩ := Node.unnumbered_eq_stmt.mp hn
    obtain ⟨_, rfl, h₂⟩ := Node.unnumbered_eq_stmt.mp hm
    obtain ⟨e, rfl, h₃⟩ := Stmt.unnumbered_eq_expression.mp h₁
    obtain ⟨e', rfl, h₄⟩ := Stmt.unnumbered_eq_expression.mp h₂
    exact .expression (ih (congrArg Node.expr h₃) (congrArg Node.expr h₄))
  | print _ ih =>
    obtain ⟨_, rfl, h₁⟩ := Node.unnumbered_eq_stmt.mp hn
    obtain ⟨_, rfl, h₂⟩ := Node.unnumbered_eq_stmt.mp hm
    obtain ⟨e, rfl, h₃⟩ := Stmt.unnumbered_eq_print.mp h₁
    obtain ⟨e', rfl, h₄⟩ := Stmt.unnumbered_eq_print.mp h₂
    exact .print (ih (congrArg Node.expr h₃) (congrArg Node.expr h₄))
  | bare hmarks =>
    obtain ⟨_, rfl, h₁⟩ := Node.unnumbered_eq_stmt.mp hn
    obtain ⟨_, rfl, h₂⟩ := Node.unnumbered_eq_stmt.mp hm
    obtain ⟨_, rfl, h₃⟩ := Stmt.unnumbered_eq_declare.mp h₁
    obtain ⟨_, rfl, h₄⟩ := Stmt.unnumbered_eq_declare.mp h₂
    rw [Option.map_none, Option.map_eq_none_iff] at h₃ h₄
    subst h₃ h₄
    exact .bare hmarks
  | initialized hmarks _ ih =>
    obtain ⟨_, rfl, h₁⟩ := Node.unnumbered_eq_stmt.mp hn
    obtain ⟨_, rfl, h₂⟩ := Node.unnumbered_eq_stmt.mp hm
    obtain ⟨_, rfl, h₃⟩ := Stmt.unnumbered_eq_declare.mp h₁
    obtain ⟨_, rfl, h₄⟩ := Stmt.unnumbered_eq_declare.mp h₂
    rw [Option.map_some, Option.map_eq_some_iff] at h₃ h₄
    obtain ⟨e, rfl, h₃⟩ := h₃
    obtain ⟨e', rfl, h₄⟩ := h₄
    exact .initialized hmarks (ih (congrArg Node.expr h₃) (congrArg Node.expr h₄))
  | block _ ih =>
    obtain ⟨_, rfl, h₁⟩ := Node.unnumbered_eq_stmt.mp hn
    obtain ⟨_, rfl, h₂⟩ := Node.unnumbered_eq_stmt.mp hm
    obtain ⟨_, rfl, h₃⟩ := Stmt.unnumbered_eq_block.mp h₁
    obtain ⟨_, rfl, h₄⟩ := Stmt.unnumbered_eq_block.mp h₂
    exact .block (ih (congrArg Node.stmts h₃) (congrArg Node.stmts h₄))
  | ifThen _ _ ihc iht =>
    obtain ⟨_, rfl, h₁⟩ := Node.unnumbered_eq_stmt.mp hn
    obtain ⟨_, rfl, h₂⟩ := Node.unnumbered_eq_stmt.mp hm
    obtain ⟨_, _, _, rfl, hc, ht, h₃⟩ := Stmt.unnumbered_eq_branch.mp h₁
    obtain ⟨_, _, _, rfl, hc', ht', h₄⟩ := Stmt.unnumbered_eq_branch.mp h₂
    rw [Option.map_eq_none_iff] at h₃ h₄
    subst h₃ h₄
    exact .ifThen (ihc (congrArg Node.expr hc) (congrArg Node.expr hc'))
      (iht (congrArg Node.stmt ht) (congrArg Node.stmt ht'))
  | ifElse _ _ _ ihc iht ihe =>
    obtain ⟨_, rfl, h₁⟩ := Node.unnumbered_eq_stmt.mp hn
    obtain ⟨_, rfl, h₂⟩ := Node.unnumbered_eq_stmt.mp hm
    obtain ⟨_, _, _, rfl, hc, ht, h₃⟩ := Stmt.unnumbered_eq_branch.mp h₁
    obtain ⟨_, _, _, rfl, hc', ht', h₄⟩ := Stmt.unnumbered_eq_branch.mp h₂
    rw [Option.map_eq_some_iff] at h₃ h₄
    obtain ⟨e, rfl, he⟩ := h₃
    obtain ⟨e', rfl, he'⟩ := h₄
    exact .ifElse (ihc (congrArg Node.expr hc) (congrArg Node.expr hc'))
      (iht (congrArg Node.stmt ht) (congrArg Node.stmt ht'))
      (ihe (congrArg Node.stmt he) (congrArg Node.stmt he'))
  | loop _ _ ihc ih =>
    obtain ⟨_, rfl, h₁⟩ := Node.unnumbered_eq_stmt.mp hn
    obtain ⟨_, rfl, h₂⟩ := Node.unnumbered_eq_stmt.mp hm
    obtain ⟨_, _, rfl, hc, h₃⟩ := Stmt.unnumbered_eq_loop.mp h₁
    obtain ⟨_, _, rfl, hc', h₄⟩ := Stmt.unnumbered_eq_loop.mp h₂
    exact .loop (ihc (congrArg Node.expr hc) (congrArg Node.expr hc'))
      (ih (congrArg Node.stmt h₃) (congrArg Node.stmt h₄))
  | breakLoop =>
    obtain ⟨_, rfl, h₁⟩ := Node.unnumbered_eq_stmt.mp hn
    obtain ⟨_, rfl, h₂⟩ := Node.unnumbered_eq_stmt.mp hm
    obtain rfl := Stmt.unnumbered_eq_breakLoop.mp h₁
    obtain rfl := Stmt.unnumbered_eq_breakLoop.mp h₂
    exact .breakLoop
  | function hmarks _ ih =>
    obtain ⟨_, rfl, h₁⟩ := Node.unnumbered_eq_stmt.mp hn
    obtain ⟨_, rfl, h₂⟩ := Node.unnumbered_eq_stmt.mp hm
    obtain ⟨_, rfl, h₃⟩ := Stmt.unnumbered_eq_function.mp h₁
    obtain ⟨_, rfl, h₄⟩ := Stmt.unnumbered_eq_function.mp h₂
    exact .function hmarks (ih (congrArg (Node.function _) h₃) (congrArg (Node.function _) h₄))
  | returnNothing =>
    obtain ⟨_, rfl, h₁⟩ := Node.unnumbered_eq_stmt.mp hn
    obtain ⟨_, rfl, h₂⟩ := Node.unnumbered_eq_stmt.mp hm
    obtain ⟨_, rfl, h₃⟩ := Stmt.unnumbered_eq_returnFrom.mp h₁
    obtain ⟨_, rfl, h₄⟩ := Stmt.unnumbered_eq_returnFrom.mp h₂
    rw [Option.map_none, Option.map_eq_none_iff] at h₃ h₄
    subst h₃ h₄
    exact .returnNothing
  | returnValue _ ih =>
    obtain ⟨_, rfl, h₁⟩ := Node.unnumbered_eq_stmt.mp hn
    obtain ⟨_, rfl, h₂⟩ := Node.unnumbered_eq_stmt.mp hm
    obtain ⟨_, rfl, h₃⟩ := Stmt.unnumbered_eq_returnFrom.mp h₁
    obtain ⟨_, rfl, h₄⟩ := Stmt.unnumbered_eq_returnFrom.mp h₂
    rw [Option.map_some, Option.map_eq_some_iff] at h₃ h₄
    obtain ⟨e, rfl, h₃⟩ := h₃
    obtain ⟨e', rfl, h₄⟩ := h₄
    exact .returnValue (ih (congrArg Node.expr h₃) (congrArg Node.expr h₄))
  | classDecl hmarks _ _ ihms ihss =>
    obtain ⟨_, rfl, h₁⟩ := Node.unnumbered_eq_stmt.mp hn
    obtain ⟨_, rfl, h₂⟩ := Node.unnumbered_eq_stmt.mp hm
    obtain ⟨_, _, rfl, hms, hss⟩ := Stmt.unnumbered_eq_classDecl.mp h₁
    obtain ⟨_, _, rfl, hms', hss'⟩ := Stmt.unnumbered_eq_classDecl.mp h₂
    exact .classDecl hmarks (ihms (congrArg Node.methods hms) (congrArg Node.methods hms'))
      (ihss (congrArg Node.statics hss) (congrArg Node.statics hss'))
  | boxed _ ih =>
    obtain ⟨_, rfl, h₁⟩ := Node.unnumbered_eq_stmt.mp hn
    obtain ⟨_, rfl, h₂⟩ := Node.unnumbered_eq_stmt.mp hm
    obtain ⟨_, rfl, h₃⟩ := Stmt.unnumbered_eq_block.mp h₂
    obtain ⟨_, _, rfl, h₄, hnil⟩ := Stmt.unnumberedEach_eq_cons.mp h₃
    obtain rfl := Stmt.unnumberedEach_eq_nil.mp hnil
    exact .boxed (ih (congrArg Node.stmt h₁) (congrArg Node.stmt h₄))
  | nil =>
    obtain ⟨_, rfl, h₁⟩ := Node.unnumbered_eq_stmts.mp hn
    obtain ⟨_, rfl, h₂⟩ := Node.unnumbered_eq_stmts.mp hm
    obtain rfl := Stmt.unnumberedEach_eq_nil.mp h₁
    obtain rfl := Stmt.unnumberedEach_eq_nil.mp h₂
    exact .nil
  | cons _ _ ih ihs =>
    obtain ⟨_, rfl, h₁⟩ := Node.unnumbered_eq_stmts.mp hn
    obtain ⟨_, rfl, h₂⟩ := Node.unnumbered_eq_stmts.mp hm
    obtain ⟨_, _, rfl, hd, hds⟩ := Stmt.unnumberedEach_eq_cons.mp h₁
    obtain ⟨_, _, rfl, hd', hds'⟩ := Stmt.unnumberedEach_eq_cons.mp h₂
    exact .cons (ih (congrArg Node.stmt hd) (congrArg Node.stmt hd'))
      (ihs (congrArg Node.stmts hds) (congrArg Node.stmts hds'))
  | body _ ih =>
    obtain ⟨_, rfl, h₁⟩ := Node.unnumbered_eq_function.mp hn
    obtain ⟨_, rfl, h₂⟩ := Node.unnumbered_eq_function.mp hm
    obtain ⟨_, rfl, h₃⟩ := Stmt.unnumberedDecl_eq_mk.mp h₁
    obtain ⟨_, rfl, h₄⟩ := Stmt.unnumberedDecl_eq_mk.mp h₂
    exact .body (ih (congrArg Node.stmts h₃) (congrArg Node.stmts h₄))
  | noMethods =>
    obtain ⟨_, rfl, h₁⟩ := Node.unnumbered_eq_methods.mp hn
    obtain ⟨_, rfl, h₂⟩ := Node.unnumbered_eq_methods.mp hm
    obtain rfl := Stmt.unnumberedDecls_eq_nil.mp h₁
    obtain rfl := Stmt.unnumberedDecls_eq_nil.mp h₂
    exact .noMethods
  | method _ _ ih ihs =>
    obtain ⟨_, rfl, h₁⟩ := Node.unnumbered_eq_methods.mp hn
    obtain ⟨_, rfl, h₂⟩ := Node.unnumbered_eq_methods.mp hm
    obtain ⟨f, _, rfl, hd, hds⟩ := Stmt.unnumberedDecls_eq_cons.mp h₁
    obtain ⟨_, _, rfl, hd', hds'⟩ := Stmt.unnumberedDecls_eq_cons.mp h₂
    have hbody := methodBody_of_unnumbered hd
    rw [← hbody] at ih
    exact .method (ih (congrArg (Node.function _) hd) (congrArg (Node.function _) hd'))
      (ihs (congrArg Node.methods hds) (congrArg Node.methods hds'))
  | noStatics =>
    obtain ⟨_, rfl, h₁⟩ := Node.unnumbered_eq_statics.mp hn
    obtain ⟨_, rfl, h₂⟩ := Node.unnumbered_eq_statics.mp hm
    obtain rfl := Stmt.unnumberedDecls_eq_nil.mp h₁
    obtain rfl := Stmt.unnumberedDecls_eq_nil.mp h₂
    exact .noStatics
  | static _ _ ih ihs =>
    obtain ⟨_, rfl, h₁⟩ := Node.unnumbered_eq_statics.mp hn
    obtain ⟨_, rfl, h₂⟩ := Node.unnumbered_eq_statics.mp hm
    obtain ⟨_, _, rfl, hd, hds⟩ := Stmt.unnumberedDecls_eq_cons.mp h₁
    obtain ⟨_, _, rfl, hd', hds'⟩ := Stmt.unnumberedDecls_eq_cons.mp h₂
    exact .static (ih (congrArg (Node.function _) hd) (congrArg (Node.function _) hd'))
      (ihs (congrArg Node.statics hds) (congrArg Node.statics hds'))

end Node.Boxed

end Scope

end Lox
