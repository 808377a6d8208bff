import Lox.Proofs.Grammar.Provenance
import Lox.Proofs.Machine.Faults
import Lox.Proofs.Scope.Visits

/-!
The tokens in the parts of an input are tokens of its text.
-/

namespace Lox.Scope

variable {k : Edit}

/-! ### Parts of an edited tree -/

lemma parts_edit (e : Expr) : (e.edit k).parts = e.parts.map (Expr.edit k) := by
  cases e <;> simp [Expr.parts, Expr.edit]

lemma heads_edit (d : Stmt) : (d.edit k).heads = d.heads.map (Expr.edit k) := by
  cases d with
  | branch c t e => cases e <;> rfl
  | _ => rfl

lemma branches_edit (d : Stmt) : (d.edit k).branches = d.branches.map (Stmt.edit k) := by
  cases d with
  | branch c t e => cases e <;> rfl
  | _ => rfl

/-- A node with other numbers and tokens. -/
def Node.edit (k : Edit) : Node → Node
  | expr e => expr (e.edit k)
  | exprs es => exprs (es.map (Expr.edit k))
  | stmt d => stmt (d.edit k)
  | stmts body => stmts (body.map (Stmt.edit k))
  | function body d => function body (d.edit k)
  | methods ds => methods (ds.map (FunctionDecl.edit k))
  | statics ds => statics (ds.map (FunctionDecl.edit k))

/-- An edit that leaves a node alone leaves alone what is inside. -/
lemma Inside.edit_eq {n m : Node} {ctx ctx' : Context} {s s' : Survey} {xs : List Region}
    (h : Inside n ctx s xs m ctx' s') (hn : n.edit k = n) : m.edit k = m := by
  cases h with
  | @parts e =>
    have he := Node.expr.inj hn
    exact congrArg Node.exprs ((parts_edit e).symm.trans (congrArg Expr.parts he))
  | @firstExpr e es =>
    have hes := Node.exprs.inj hn
    exact congrArg Node.expr (List.cons.inj hes).1
  | @laterExprs e es =>
    have hes := Node.exprs.inj hn
    exact congrArg Node.exprs (List.cons.inj hes).2
  | @heads d =>
    have hd := Node.stmt.inj hn
    exact congrArg Node.exprs ((heads_edit d).symm.trans (congrArg Stmt.heads hd))
  | @branches d =>
    have hd := Node.stmt.inj hn
    exact congrArg Node.stmts ((branches_edit d).symm.trans (congrArg Stmt.branches hd))
  | returned =>
    have hd := Node.stmt.inj hn
    exact congrArg Node.expr (Option.some.inj (Stmt.returnFrom.inj hd).2)
  | initial =>
    have hd := Node.stmt.inj hn
    exact congrArg Node.expr (Option.some.inj (Stmt.declare.inj hd).2)
  | @block body =>
    have hd := Node.stmt.inj hn
    rw [Stmt.edit_block] at hd
    exact congrArg Node.stmts (Stmt.block.inj hd)
  | function =>
    have hd := Node.stmt.inj hn
    exact congrArg (Node.function _) (Stmt.function.inj hd)
  | methods =>
    have hd := Node.stmt.inj hn
    rw [Stmt.edit_classDecl] at hd
    exact congrArg Node.methods (Stmt.classDecl.inj hd).2.1
  | statics =>
    have hd := Node.stmt.inj hn
    rw [Stmt.edit_classDecl] at hd
    exact congrArg Node.statics (Stmt.classDecl.inj hd).2.2
  | firstStmt =>
    have hds := Node.stmts.inj hn
    exact congrArg Node.stmt (List.cons.inj hds).1
  | laterStmts =>
    have hds := Node.stmts.inj hn
    exact congrArg Node.stmts (List.cons.inj hds).2
  | @body d body =>
    have hd := (Node.function.inj hn).2
    obtain ⟨name, params, code⟩ := d
    have hcode := (FunctionDecl.mk.inj hd).2.2
    rw [Stmt.editEach_eq_map] at hcode
    exact congrArg Node.stmts hcode
  | firstMethod =>
    have hds := Node.methods.inj hn
    exact congrArg (Node.function _) (List.cons.inj hds).1
  | laterMethods =>
    have hds := Node.methods.inj hn
    exact congrArg Node.methods (List.cons.inj hds).2
  | firstStatic =>
    have hds := Node.statics.inj hn
    exact congrArg (Node.function _) (List.cons.inj hds).1
  | laterStatics =>
    have hds := Node.statics.inj hn
    exact congrArg Node.statics (List.cons.inj hds).2

/-- A node that is visited is left alone by all that leaves its input alone. -/
lemma Visited.edit_eq {inputs : List Grammar.Input} {xs : List Region} {n : Node} {ctx : Context}
    {s : Survey} (h : Visited inputs xs n ctx s) :
    ∃ input ∈ inputs, ∀ k, input.edit k = input → n.edit k = n := by
  induction h with
  | @root input hinput =>
    refine ⟨input, hinput, fun k hk => ?_⟩
    cases input with
    | expression e => exact congrArg Node.expr (Grammar.Input.expression.inj hk)
    | statements body => exact congrArg Node.stmts (Grammar.Input.statements.inj hk)
  | inside _ hin ih =>
    obtain ⟨input, hinput, hn⟩ := ih
    exact ⟨input, hinput, fun k hk => hin.edit_eq (hn k hk)⟩

/-! ### Tokens of a text -/

/-- Tokens that are not among the given ones are moved to the next line. -/
def movingOthers (tokens : List Token) : Edit where
  node := id
  token t := if t ∈ tokens then t else { t with line := t.line + 1 }
  kind_token t := by split <;> rfl

lemma mem_of_movingOthers {tokens : List Token} {t : Token}
    (h : (movingOthers tokens).token t = t) : t ∈ tokens := by
  by_contra ht
  have hline : t.line + 1 = t.line := by
    have hmoved := congrArg Token.line h
    simpa only [movingOthers, if_neg ht] using hmoved
  omega

lemma token_of_site {e : Expr} {t : Token} (he : e.edit k = e) (ht : e.site? = some t) :
    k.token t = t := by
  cases e <;> simp_all [Expr.site?, Expr.edit]

/-- The operator, name or closing parenthesis of an expression in an input is in the text that the
input was read from. -/
theorem Visited.mem_tokens {inputs : List Grammar.Input} {xs : List Region} {e : Expr}
    {ctx : Context} {s : Survey} {t : Token} (h : Visited inputs xs (.expr e) ctx s)
    (ht : e.site? = some t) : ∃ input ∈ inputs, ∀ {mode : Grammar.Mode} {source : String}
      {i : NodeId}, (Grammar.read mode source i).result = .ok input → t ∈ Source.tokens source := by
  obtain ⟨input, hinput, hedit⟩ := h.edit_eq
  refine ⟨input, hinput, fun {mode source i} hread => mem_of_movingOthers ?_⟩
  have hsame : (Source.tokens source).map (movingOthers (Source.tokens source)).token =
      Source.tokens source :=
    (List.map_congr_left fun t ht => if_pos ht).trans (List.map_id' _)
  have hk := Grammar.edit_eq_of_inputOf (k := movingOthers (Source.tokens source))
    (fun _ => rfl) (Grammar.ended_tokens source) hsame (Grammar.inputOf_of_read hread)
  exact token_of_site (Node.expr.inj (hedit _ hk)) ht

end Lox.Scope
