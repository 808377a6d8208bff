import Mathlib.Tactic.Common
import Lox.Grammar.Program

/-!
What the rules of the grammar are made of.

A rule touches its cursor through a few primitive rules only: it does one after another, and it may
recover from a failure. So what holds of the primitive rules, and is kept when rules are put
together, holds of every rule.
-/

namespace Lox.Grammar

/-- The rule is made of primitive rules. -/
inductive Rule.Composed : {α : Type} → Rule α → Prop
  | pure {α : Type} (a : α) : Composed (pure a)
  | bind {α β : Type} {r : Rule α} {f : α → Rule β} :
      Composed r → (∀ a, Composed (f a)) → Composed (r >>= f)
  | recovering {α : Type} {r : Rule α} : Composed r → Composed (recovering r)
  | peek : Composed peek
  | atEnd : Composed atEnd
  | sees (p : Kind → Bool) : Composed (sees p)
  | advance : Composed advance
  | accept (p : Kind → Bool) : Composed (accept p)
  | expect (p : Kind → Bool) (f : Fault) : Composed (expect p f)
  | fail {α : Type} (f : Fault) : Composed (fail f : Rule α)
  | report (t : Token) (f : Fault) : Composed (report t f)
  | freshId : Composed freshId
  | exhausted {α : Type} : Composed (exhausted : Rule α)

namespace Rule.Composed

variable {α β : Type}

lemma map {r : Rule α} (h : r.Composed) (f : α → β) : (f <$> r).Composed :=
  h.bind fun _ => .pure _

lemma require (b : Bool) (t : Token) (f : Fault) : (require b t f).Composed := by
  cases b with
  | true => exact .pure _
  | false => exact .report t f

lemma unlessSees {r : Rule α} (h : r.Composed) (s : Symbol) (a : α) :
    (unlessSees s a r).Composed := by
  refine (sees _).bind fun seen => ?_
  cases seen with
  | true => exact .pure a
  | false => exact h

lemma accept_bind {p : Kind → Bool} {f : Option Token → Rule β} (hnone : (f none).Composed)
    (hsome : ∀ t, (f (some t)).Composed) : (Grammar.accept p >>= f).Composed := by
  refine (accept p).bind fun o => ?_
  cases o with
  | none => exact hnone
  | some t => exact hsome t

end Rule.Composed

open Rule

/-! ### Expressions -/

lemma composed_assignTo (target : Expr) (equals : Token) (value : Expr) :
    (assignTo target equals value).Composed := by
  cases target with
  | reference id name => exact Composed.freshId.bind fun _ => .pure _
  | property object name => exact .pure _
  | _ => exact (Composed.report equals _).bind fun _ => .pure _

/-- The rules for expressions, with `n` steps, are made of primitive rules. -/
structure ExprComposed (n : ℕ) : Prop where
  expr : ∀ l, (expr n l).Composed
  chain : ∀ l e, (chain n l e).Composed
  suffixes : ∀ e, (suffixes n e).Composed
  argumentList : ∀ found, (argumentList n found).Composed
  primary : (primary n).Composed

lemma exprComposed (n : ℕ) : ExprComposed n := by
  induction n with
  | zero => constructor <;> intros <;> exact .exhausted
  | succ n ih =>
    constructor
    · intro l
      cases l with
      | assignment =>
        rw [Grammar.expr]
        refine (ih.expr _).bind fun target => Composed.accept_bind (.pure _) fun equals => ?_
        exact (ih.expr _).bind fun value => composed_assignTo target equals value
      | conditional =>
        rw [Grammar.expr]
        refine (ih.expr _).bind fun condition => Composed.accept_bind (.pure _) fun _ => ?_
        exact (ih.expr _).bind fun _ => (Composed.expect _ _).bind fun _ =>
          (ih.expr _).bind fun _ => .pure _
      | unary =>
        rw [Grammar.expr]
        exact Composed.accept_bind (ih.expr _) fun op => (ih.expr _).bind fun _ => .pure _
      | call => exact (ih.expr _).bind ih.suffixes
      | primary => exact ih.primary
      | _ => exact (ih.expr _).bind (ih.chain _)
    · intro l e
      rw [Grammar.chain]
      exact Composed.accept_bind (.pure _) fun op => (ih.expr _).bind fun _ => ih.chain _ _
    · intro e
      rw [Grammar.suffixes]
      refine Composed.peek.bind fun t => ?_
      split
      · exact Composed.advance.bind fun _ => ((ih.argumentList _).unlessSees _ _).bind fun _ =>
          (Composed.expect _ _).bind fun _ => ih.suffixes _
      · exact Composed.advance.bind fun _ => (Composed.expect _ _).bind fun _ => ih.suffixes _
      · exact .pure _
    · intro found
      rw [Grammar.argumentList]
      exact Composed.peek.bind fun _ => (Composed.require _ _ _).bind fun _ =>
        (ih.expr _).bind fun _ => Composed.accept_bind (.pure _) fun _ => ih.argumentList _
    · rw [Grammar.primary]
      refine Composed.peek.bind fun t => ?_
      split
      case h_4 => exact Composed.advance.bind fun _ => Composed.freshId.bind fun _ => .pure _
      case h_7 => exact Composed.advance.bind fun _ => Composed.freshId.bind fun _ => .pure _
      case h_8 =>
        exact Composed.advance.bind fun _ => (ih.expr _).bind fun _ =>
          (Composed.expect _ _).bind fun _ => .pure _
      case h_9 =>
        split
        · exact Composed.advance.bind fun _ => (Composed.report _ _).bind fun _ => ih.expr _
        · exact .fail _
      all_goals exact Composed.advance.bind fun _ => .pure _

/-! ### Statements -/

section
variable (n : ℕ)

lemma composed_expression : (expression n).Composed := (exprComposed n).expr _

lemma composed_varDeclaration : (varDeclaration n).Composed := by
  refine (Composed.expect _ _).bind fun name => ?_
  refine Composed.bind ?_ fun initial => (Composed.expect _ _).bind fun _ => .pure _
  exact Composed.accept_bind (.pure _) fun _ => (composed_expression n).map _

lemma composed_expressionStatement : (expressionStatement n).Composed :=
  (composed_expression n).bind fun _ => (Composed.expect _ _).bind fun _ => .pure _

lemma composed_printStatement : (printStatement n).Composed :=
  (composed_expression n).bind fun _ => (Composed.expect _ _).bind fun _ => .pure _

lemma composed_breakStatement (inLoop : Bool) (keyword : Token) :
    (breakStatement inLoop keyword).Composed :=
  (Composed.require _ _ _).bind fun _ => (Composed.expect _ _).bind fun _ => .pure _

lemma composed_returnStatement (keyword : Token) : (returnStatement n keyword).Composed :=
  (((composed_expression n).map _).unlessSees _ _).bind fun _ =>
    (Composed.expect _ _).bind fun _ => .pure _

lemma composed_parameterList (found : List Token) : (parameterList n found).Composed := by
  induction n generalizing found with
  | zero => exact .exhausted
  | succ n ih =>
    rw [parameterList]
    exact Composed.peek.bind fun _ => (Composed.require _ _ _).bind fun _ =>
      (Composed.expect _ _).bind fun _ => Composed.accept_bind (.pure _) fun _ => ih _

lemma composed_parameters (sort : FunctionSort) : (parameters n sort).Composed := by
  refine (Composed.sees _).bind fun _ => ?_
  split
  · exact .pure _
  · exact (Composed.expect _ _).bind fun _ => ((composed_parameterList n _).unlessSees _ _).bind
      fun _ => (Composed.expect _ _).bind fun _ => .pure _

lemma composed_forFirst : (forFirst n).Composed := by
  refine Composed.accept_bind ?_ fun _ => .pure _
  exact Composed.accept_bind ((composed_expressionStatement n).map _) fun _ =>
    (composed_varDeclaration n).map _

lemma composed_forHead : (forHead n).Composed :=
  (Composed.expect _ _).bind fun _ => (composed_forFirst n).bind fun _ =>
    (((composed_expression n).map _).unlessSees _ _).bind fun _ =>
      (Composed.expect _ _).bind fun _ =>
        (((composed_expression n).map _).unlessSees _ _).bind fun _ =>
          (Composed.expect _ _).bind fun _ => .pure _

end

/-- A declaration or statement that is not recovered from. -/
def bareDeclaration (n : Nat) (inLoop : Bool) : Rule Stmt := do
  let t ← peek
  match t.kind with
  | .keyword .kwClass => do advance; classDeclaration n
  | .keyword .kwFun => do advance; .function <$> function n .function
  | .keyword .kwVar => do advance; varDeclaration n
  | _ => statement n inLoop

lemma declaration_succ (n : ℕ) (inLoop : Bool) :
    declaration (n + 1) inLoop = recovering (bareDeclaration n inLoop) := by
  rw [declaration]
  rfl

/-- The rules for declarations and statements, with `n` steps, are made of primitive rules. -/
structure StmtComposed (n : ℕ) : Prop where
  declaration : ∀ b, (declaration n b).Composed
  statement : ∀ b, (statement n b).Composed
  block : ∀ b found, (block n b found).Composed
  function : ∀ sort, (function n sort).Composed
  classDeclaration : (classDeclaration n).Composed
  members : ∀ ms ss, (members n ms ss).Composed

lemma StmtComposed.bareDeclaration {n : ℕ} (h : StmtComposed n) (inLoop : Bool) :
    (bareDeclaration n inLoop).Composed := by
  refine Composed.peek.bind fun t => ?_
  split
  · exact Composed.advance.bind fun _ => h.classDeclaration
  · exact Composed.advance.bind fun _ => (h.function _).map _
  · exact Composed.advance.bind fun _ => composed_varDeclaration n
  · exact h.statement inLoop

lemma stmtComposed (n : ℕ) : StmtComposed n := by
  induction n with
  | zero => constructor <;> intros <;> exact .exhausted
  | succ n ih =>
    constructor
    · intro b
      rw [declaration_succ]
      exact .recovering (ih.bareDeclaration b)
    · intro b
      rw [Grammar.statement]
      refine Composed.peek.bind fun t => ?_
      split
      · exact Composed.advance.bind fun _ => (composed_forHead n).bind fun _ =>
          (ih.statement _).map _
      · exact Composed.advance.bind fun _ => (Composed.expect _ _).bind fun _ =>
          (composed_expression n).bind fun _ => (Composed.expect _ _).bind fun _ =>
            (ih.statement _).bind fun _ =>
              Composed.accept_bind (.pure _) fun _ => (ih.statement _).map _
      · exact Composed.advance.bind fun _ => (Composed.expect _ _).bind fun _ =>
          (composed_expression n).bind fun _ => (Composed.expect _ _).bind fun _ =>
            (ih.statement _).map _
      · exact Composed.advance.bind fun _ => composed_breakStatement _ _
      · exact Composed.advance.bind fun _ => composed_returnStatement n _
      · exact Composed.advance.bind fun _ => (ih.block _ _).map _
      · exact Composed.advance.bind fun _ => composed_printStatement n
      · exact composed_expressionStatement n
    · intro b found
      rw [Grammar.block]
      refine Composed.atEnd.bind fun _ => (Composed.sees _).bind fun _ => ?_
      split
      · exact (Composed.expect _ _).bind fun _ => .pure _
      · exact (ih.declaration _).bind fun _ => ih.block _ _
    · intro sort
      rw [Grammar.function]
      exact (Composed.expect _ _).bind fun _ => (composed_parameters n _).bind fun _ =>
        (Composed.expect _ _).bind fun _ => (ih.block _ _).bind fun _ => .pure _
    · rw [Grammar.classDeclaration]
      exact (Composed.expect _ _).bind fun _ => (Composed.expect _ _).bind fun _ =>
        (ih.members _ _).bind fun _ => (Composed.expect _ _).bind fun _ => .pure _
    · intro ms ss
      rw [Grammar.members]
      refine Composed.atEnd.bind fun _ => (Composed.sees _).bind fun _ => ?_
      split
      · exact .pure _
      · exact Composed.accept_bind ((ih.function _).bind fun _ => ih.members _ _) fun _ =>
          (ih.function _).bind fun _ => ih.members _ _

lemma composed_declarations (n : ℕ) (found : List Stmt) : (declarations n found).Composed := by
  induction n generalizing found with
  | zero => exact .exhausted
  | succ n ih =>
    rw [declarations]
    refine Composed.atEnd.bind fun _ => ?_
    split
    · exact .pure _
    · exact ((stmtComposed n).declaration _).bind fun _ => ih _

end Lox.Grammar
