import Mathlib.Order.Monotone.Basic
import Mathlib.Tactic.Common
import Lox.Grammar.Program

/-!
Greater allowances of steps.

With more steps a rule does what it did with fewer, unless it ran out with those. So each rule is
monotone in its allowance, for the order in which running out is below every other outcome.
-/

namespace Lox.Grammar

variable {α β : Type}

/-- A rule is below another if they agree wherever the first does not run out. -/
instance : Preorder (Rule α) where
  le r r' := ∀ c, r c = .exhausted ∨ r c = r' c
  le_refl _ _ := .inr rfl
  le_trans r r' r'' h h' c := by
    rcases h c with h | h
    · exact .inl h
    · rw [h]; exact h' c

namespace Rule

lemma eq_of_le {r r' : Rule α} (h : r ≤ r') {c : Cursor} (hc : r c ≠ .exhausted) : r' c = r c :=
  ((h c).resolve_left hc).symm

lemma done_of_le {r r' : Rule α} (h : r ≤ r') {c c' : Cursor} {a : α} (hr : r c = .done a c') :
    r' c = .done a c' := by
  rcases h c with hex | heq
  · rw [hr] at hex
    cases hex
  · rw [← heq, hr]

lemma exhausted_le (r : Rule α) : exhausted ≤ r := fun _ => .inl rfl

lemma bind_le {r r' : Rule α} {f f' : α → Rule β} (h : r ≤ r') (hf : ∀ a, f a ≤ f' a) :
    (r >>= f) ≤ (r' >>= f') := by
  intro c
  rw [bind_apply, bind_apply]
  rcases h c with h | h
  · rw [h]; exact .inl rfl
  · rw [← h]
    cases r c with
    | done a c₁ => exact hf a c₁
    | failed e c₁ => exact .inr rfl
    | exhausted => exact .inl rfl

lemma bind_le_right (r : Rule α) {f f' : α → Rule β} (hf : ∀ a, f a ≤ f' a) :
    (r >>= f) ≤ (r >>= f') :=
  bind_le le_rfl hf

lemma bind_le_left {r r' : Rule α} (f : α → Rule β) (h : r ≤ r') : (r >>= f) ≤ (r' >>= f) :=
  bind_le h fun _ => le_rfl

lemma map_le {r r' : Rule α} (f : α → β) (h : r ≤ r') : (f <$> r) ≤ (f <$> r') :=
  bind_le_left _ h

lemma unlessSees_le (s : Symbol) (a : α) {r r' : Rule α} (h : r ≤ r') :
    unlessSees s a r ≤ unlessSees s a r' := by
  refine bind_le_right _ fun b => ?_
  cases b with
  | true => exact le_rfl
  | false => exact h

lemma recovering_le {r r' : Rule α} (h : r ≤ r') : recovering r ≤ recovering r' := by
  intro c
  unfold recovering
  rcases h c with h | h
  · rw [h]; exact .inl rfl
  · rw [h]; exact .inr rfl

end Rule

open Rule

/-! ### Expressions -/

/-- The rules for expressions with `n` steps are below those with one more. -/
structure ExprGrows (n : ℕ) : Prop where
  expr : ∀ l, expr n l ≤ expr (n + 1) l
  chain : ∀ l e, chain n l e ≤ chain (n + 1) l e
  suffixes : ∀ e, suffixes n e ≤ suffixes (n + 1) e
  argumentList : ∀ found, argumentList n found ≤ argumentList (n + 1) found
  primary : primary n ≤ primary (n + 1)

lemma exprGrows (n : ℕ) : ExprGrows n := by
  induction n with
  | zero => constructor <;> intros <;> exact exhausted_le _
  | succ n ih =>
    constructor
    · intro l
      cases l with
      | assignment =>
        conv_lhs => rw [Grammar.expr]
        conv_rhs => rw [Grammar.expr]
        refine bind_le (ih.expr _) fun target => bind_le_right _ fun o => ?_
        cases o with
        | none => exact le_rfl
        | some t => exact bind_le_left _ (ih.expr _)
      | conditional =>
        conv_lhs => rw [Grammar.expr]
        conv_rhs => rw [Grammar.expr]
        refine bind_le (ih.expr _) fun condition => bind_le_right _ fun o => ?_
        cases o with
        | none => exact le_rfl
        | some t =>
          exact bind_le (ih.expr _) fun _ => bind_le_right _ fun _ => bind_le_left _ (ih.expr _)
      | unary =>
        conv_lhs => rw [Grammar.expr]
        conv_rhs => rw [Grammar.expr]
        refine bind_le_right _ fun o => ?_
        cases o with
        | none => exact ih.expr _
        | some t => exact bind_le_left _ (ih.expr _)
      | call => exact bind_le (ih.expr _) ih.suffixes
      | primary => exact ih.primary
      | _ => exact bind_le (ih.expr _) (ih.chain _)
    · intro l e
      conv_lhs => rw [Grammar.chain]
      conv_rhs => rw [Grammar.chain]
      refine bind_le_right _ fun o => ?_
      cases o with
      | none => exact le_rfl
      | some t => exact bind_le (ih.expr _) fun _ => ih.chain _ _
    · intro e
      conv_lhs => rw [Grammar.suffixes]
      conv_rhs => rw [Grammar.suffixes]
      refine bind_le_right _ fun t => ?_
      split
      · exact bind_le_right _ fun _ => bind_le (unlessSees_le _ _ (ih.argumentList _)) fun _ =>
          bind_le_right _ fun _ => ih.suffixes _
      · exact bind_le_right _ fun _ => bind_le_right _ fun _ => ih.suffixes _
      · exact le_rfl
    · intro found
      conv_lhs => rw [Grammar.argumentList]
      conv_rhs => rw [Grammar.argumentList]
      refine bind_le_right _ fun _ => bind_le_right _ fun _ => bind_le (ih.expr _) fun e =>
        bind_le_right _ fun o => ?_
      cases o with
      | none => exact le_rfl
      | some t => exact ih.argumentList _
    · conv_lhs => rw [Grammar.primary]
      conv_rhs => rw [Grammar.primary]
      refine bind_le_right _ fun t => ?_
      split
      case h_8 => exact bind_le_right _ fun _ => bind_le_left _ (ih.expr _)
      case h_9 =>
        split
        · exact bind_le_right _ fun _ => bind_le_right _ fun _ => ih.expr _
        · exact le_rfl
      all_goals exact le_rfl

theorem expr_mono (l : Level) : Monotone fun n => expr n l :=
  monotone_nat_of_le_succ fun n => (exprGrows n).expr l

/-! ### Statements -/

section
variable (n : ℕ)

lemma expression_le : expression n ≤ expression (n + 1) := (exprGrows n).expr _

lemma some_expression_le : (some <$> expression n) ≤ (some <$> expression (n + 1)) :=
  map_le _ (expression_le n)

lemma varDeclaration_le : varDeclaration n ≤ varDeclaration (n + 1) := by
  refine bind_le_right _ fun name => bind_le_left _ (bind_le_right _ fun o => ?_)
  cases o with
  | none => exact le_rfl
  | some t => exact some_expression_le n

lemma expressionStatement_le : expressionStatement n ≤ expressionStatement (n + 1) :=
  bind_le_left _ (expression_le n)

lemma printStatement_le : printStatement n ≤ printStatement (n + 1) :=
  bind_le_left _ (expression_le n)

lemma returnStatement_le (keyword : Token) :
    returnStatement n keyword ≤ returnStatement (n + 1) keyword :=
  bind_le_left _ (unlessSees_le _ _ (some_expression_le n))

lemma parameterList_le (found : List Token) :
    parameterList n found ≤ parameterList (n + 1) found := by
  induction n generalizing found with
  | zero => exact exhausted_le _
  | succ n ih =>
    conv_lhs => rw [parameterList]
    conv_rhs => rw [parameterList]
    refine bind_le_right _ fun _ => bind_le_right _ fun _ => bind_le_right _ fun name =>
      bind_le_right _ fun o => ?_
    cases o with
    | none => exact le_rfl
    | some t => exact ih _

lemma parameters_le (sort : FunctionSort) : parameters n sort ≤ parameters (n + 1) sort := by
  refine bind_le_right _ fun b => ?_
  split
  · exact le_rfl
  · exact bind_le_right _ fun _ => bind_le_left _ (unlessSees_le _ _ (parameterList_le n _))

lemma forFirst_le : forFirst n ≤ forFirst (n + 1) := by
  refine bind_le_right _ fun o => ?_
  cases o with
  | some t => exact le_rfl
  | none =>
    refine bind_le_right _ fun o => ?_
    cases o with
    | some t => exact map_le _ (varDeclaration_le n)
    | none => exact map_le _ (expressionStatement_le n)

lemma forHead_le : forHead n ≤ forHead (n + 1) :=
  bind_le_right _ fun _ => bind_le (forFirst_le n) fun _ =>
    bind_le (unlessSees_le _ _ (some_expression_le n)) fun _ => bind_le_right _ fun _ =>
      bind_le_left _ (unlessSees_le _ _ (some_expression_le n))

end

/-- The rules for declarations and statements with `n` steps are below those with one more. -/
structure StmtGrows (n : ℕ) : Prop where
  declaration : ∀ b, declaration n b ≤ declaration (n + 1) b
  statement : ∀ b, statement n b ≤ statement (n + 1) b
  block : ∀ b found, block n b found ≤ block (n + 1) b found
  function : ∀ sort, function n sort ≤ function (n + 1) sort
  classDeclaration : classDeclaration n ≤ classDeclaration (n + 1)
  members : ∀ ms ss, members n ms ss ≤ members (n + 1) ms ss

lemma stmtGrows (n : ℕ) : StmtGrows n := by
  induction n with
  | zero => constructor <;> intros <;> exact exhausted_le _
  | succ n ih =>
    constructor
    · intro b
      conv_lhs => rw [Grammar.declaration]
      conv_rhs => rw [Grammar.declaration]
      refine recovering_le (bind_le_right _ fun t => ?_)
      split
      · exact bind_le_right _ fun _ => ih.classDeclaration
      · exact bind_le_right _ fun _ => map_le _ (ih.function _)
      · exact bind_le_right _ fun _ => varDeclaration_le n
      · exact ih.statement b
    · intro b
      conv_lhs => rw [Grammar.statement]
      conv_rhs => rw [Grammar.statement]
      refine bind_le_right _ fun t => ?_
      split
      · exact bind_le_right _ fun _ => bind_le (forHead_le n) fun _ => map_le _ (ih.statement _)
      · refine bind_le_right _ fun _ => bind_le_right _ fun _ => bind_le (expression_le n) fun _ =>
          bind_le_right _ fun _ => bind_le (ih.statement _) fun _ => bind_le_right _ fun o => ?_
        cases o with
        | none => exact le_rfl
        | some t => exact map_le _ (ih.statement _)
      · exact bind_le_right _ fun _ => bind_le_right _ fun _ => bind_le (expression_le n) fun _ =>
          bind_le_right _ fun _ => map_le _ (ih.statement _)
      · exact le_rfl
      · exact bind_le_right _ fun _ => returnStatement_le n _
      · exact bind_le_right _ fun _ => map_le _ (ih.block _ _)
      · exact bind_le_right _ fun _ => printStatement_le n
      · exact expressionStatement_le n
    · intro b found
      conv_lhs => rw [Grammar.block]
      conv_rhs => rw [Grammar.block]
      refine bind_le_right _ fun _ => bind_le_right _ fun _ => ?_
      split
      · exact le_rfl
      · exact bind_le (ih.declaration _) fun _ => ih.block _ _
    · intro sort
      conv_lhs => rw [Grammar.function]
      conv_rhs => rw [Grammar.function]
      exact bind_le_right _ fun _ => bind_le (parameters_le n _) fun _ => bind_le_right _ fun _ =>
        bind_le_left _ (ih.block _ _)
    · conv_lhs => rw [Grammar.classDeclaration]
      conv_rhs => rw [Grammar.classDeclaration]
      exact bind_le_right _ fun _ => bind_le_right _ fun _ => bind_le_left _ (ih.members _ _)
    · intro ms ss
      conv_lhs => rw [Grammar.members]
      conv_rhs => rw [Grammar.members]
      refine bind_le_right _ fun _ => bind_le_right _ fun _ => ?_
      split
      · exact le_rfl
      · refine bind_le_right _ fun o => ?_
        cases o with
        | none => exact bind_le (ih.function _) fun _ => ih.members _ _
        | some t => exact bind_le (ih.function _) fun _ => ih.members _ _

lemma declarations_le (n : ℕ) (found : List Stmt) :
    declarations n found ≤ declarations (n + 1) found := by
  induction n generalizing found with
  | zero => exact exhausted_le _
  | succ n ih =>
    conv_lhs => rw [declarations]
    conv_rhs => rw [declarations]
    refine bind_le_right _ fun b => ?_
    split
    · exact le_rfl
    · exact bind_le ((stmtGrows n).declaration _) fun _ => ih _

theorem declarations_mono (found : List Stmt) : Monotone fun n => declarations n found :=
  monotone_nat_of_le_succ fun n => declarations_le n found

end Lox.Grammar
