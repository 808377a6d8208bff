import Mathlib.Tactic.Common
import Lox.Grammar.Program
import Lox.Proofs.Tree.Editing

/-!
Changes of the cursor that no rule notices.

A rule sees its cursor through a few primitive rules only. Where those carry over to a changed
cursor, with what they yield edited, so does every rule that is made of them. A rule may look
one token ahead, and so what it does next to the end of the tokens need not carry over: the changes
say at which cursors it has to.
-/

namespace Lox.Grammar

variable {α β γ δ : Type}

/-- A way of changing cursors, together with trees and complaints. -/
structure Change where
  edit : Edit
  complaint : Complaint → Complaint
  cursor : Cursor → Cursor
  /-- Whether failures carry over as well as successes. -/
  Total : Prop
  /-- Where a rule may look one token ahead. -/
  Inner : Cursor → Prop
  /-- Where a rule may come to its end. -/
  Outer : Cursor → Prop

namespace Change

variable {k : Change}

/-- The second outcome is the first one carried over, if that is within `Q`; then `P` holds too. -/
def CarriesTo (k : Change) (P : Prop) (Q : Cursor → Prop) (f : α → β) :
    Outcome α → Outcome β → Prop
  | .done a c, o => Q c → P ∧ o = .done (f a) (k.cursor c)
  | .failed e c, o => k.Total → o = .failed (k.complaint e) (k.cursor c)
  | .exhausted, o => k.Total → o = .exhausted

/-- What the first rule does, where it ends within `Q`, the second does at the changed cursor, and
the first has then started within `P`. -/
def Carries (k : Change) (P Q : Cursor → Prop) (f : α → β) (r : Rule α) (r' : Rule β) : Prop :=
  ∀ c, k.CarriesTo (P c) Q f (r c) (r' (k.cursor c))

/-- The primitive rules carry over. -/
structure Unnoticed (k : Change) : Prop where
  inner_of_total : k.Total → ∀ c, k.Inner c
  outer_of_inner : ∀ c, k.Inner c → k.Outer c
  peek : k.Carries k.Inner k.Inner k.edit.token peek peek
  atEnd : k.Carries k.Inner k.Inner id atEnd atEnd
  sees : ∀ p, k.Carries k.Inner k.Inner id (sees p) (sees p)
  advance : k.Carries k.Inner k.Inner id advance advance
  accept : ∀ p, k.Carries k.Inner k.Inner (Option.map k.edit.token) (accept p)
    (accept p)
  acceptElse : k.Carries k.Outer k.Outer (Option.map k.edit.token)
    (acceptKeyword .kwElse) (acceptKeyword .kwElse)
  fail : ∀ {α β : Type} (f : α → β) e, k.Carries k.Inner k.Inner f (fail e) (fail e)
  expect : ∀ p e, k.Carries k.Inner k.Outer k.edit.token (expect p e) (expect p e)
  report : ∀ t e, k.Carries k.Inner k.Inner id (report t e) (report (k.edit.token t) e)
  freshId : k.Carries k.Inner k.Inner k.edit.node freshId freshId
  recovering : ∀ {α β : Type} {f : α → β} {r : Rule α} {r' : Rule β},
    k.Carries k.Inner k.Outer f r r' →
      k.Carries k.Inner k.Outer (Option.map f) (recovering r) (recovering r')

section
variable {P Q M : Cursor → Prop} {f : α → β} {g : γ → δ} {r : Rule α} {r' : Rule β}

lemma carries_pure {a : α} {b : β} (h : f a = b) : k.Carries P P f (pure a) (pure b) := by
  subst h
  exact fun c hc => ⟨hc, rfl⟩

lemma carries_exhausted : k.Carries P Q f Rule.exhausted Rule.exhausted := fun _ _ => rfl

lemma Carries.mono (h : k.Carries P Q f r r') {Q' : Cursor → Prop} (hQ : ∀ c, Q' c → Q c) :
    k.Carries P Q' f r r' := by
  intro c
  have hc := h c
  cases hr : r c with
  | done a c' => rw [hr] at hc; exact fun h => hc (hQ _ h)
  | failed e c' => rw [hr] at hc; exact hc
  | exhausted => rw [hr] at hc; exact hc

lemma Carries.weaken (h : k.Carries P Q f r r') {P' : Cursor → Prop} (hP : ∀ c, P c → P' c) :
    k.Carries P' Q f r r' := by
  intro c
  have hc := h c
  cases hr : r c with
  | done a c' => rw [hr] at hc; exact fun h => (hc h).imp_left (hP c)
  | failed e c' => rw [hr] at hc; exact hc
  | exhausted => rw [hr] at hc; exact hc

lemma Carries.bind (h : k.Carries P M f r r') {F : α → Rule γ} {F' : β → Rule δ}
    (hM : k.Total → ∀ c, M c) (hF : ∀ a, k.Carries M Q g (F a) (F' (f a))) :
    k.Carries P Q g (r >>= F) (r' >>= F') := by
  intro c
  have hc := h c
  rw [Rule.bind_apply, Rule.bind_apply]
  cases hr : r c with
  | failed e c₁ =>
    rw [hr] at hc
    exact fun htotal => by rw [hc htotal]
  | exhausted =>
    rw [hr] at hc
    exact fun htotal => by rw [hc htotal]
  | done a c₁ =>
    rw [hr] at hc
    have hc₁ := hF a c₁
    dsimp only
    cases hr₁ : F a c₁ with
    | done b c₂ =>
      rw [hr₁] at hc₁
      -- backwards: the second rule has started where the first may end
      intro hQ
      obtain ⟨hM₁, h₁⟩ := hc₁ hQ
      obtain ⟨hP, h₂⟩ := hc hM₁
      exact ⟨hP, by rw [h₂]; exact h₁⟩
    | failed e c₂ =>
      rw [hr₁] at hc₁
      exact fun htotal => by rw [(hc (hM htotal _)).2]; exact hc₁ htotal
    | exhausted =>
      rw [hr₁] at hc₁
      exact fun htotal => by rw [(hc (hM htotal _)).2]; exact hc₁ htotal

end

namespace Unnoticed

variable {P Q : Cursor → Prop} {f : α → β} {g : γ → δ} {r : Rule α} {r' : Rule β}

/-- One rule inside, and then another. -/
lemma bind (h : k.Unnoticed) (hr : k.Carries k.Inner k.Inner f r r') {F : α → Rule γ}
    {F' : β → Rule δ} (hF : ∀ a, k.Carries k.Inner Q g (F a) (F' (f a))) :
    k.Carries k.Inner Q g (r >>= F) (r' >>= F') :=
  Carries.bind hr h.inner_of_total hF

lemma expectInner (h : k.Unnoticed) (p : Kind → Bool) (e : Fault) :
    k.Carries k.Inner k.Inner k.edit.token (Grammar.expect p e) (Grammar.expect p e) :=
  (h.expect p e).mono h.outer_of_inner

lemma outer_of_total (h : k.Unnoticed) (htotal : k.Total) (c : Cursor) : k.Outer c :=
  h.outer_of_inner c (h.inner_of_total htotal c)

lemma map (h : k.Unnoticed) (hr : k.Carries k.Inner k.Inner f r r') {F : α → γ} {F' : β → δ}
    (hF : ∀ a, g (F a) = F' (f a)) : k.Carries k.Inner k.Inner g (F <$> r) (F' <$> r') :=
  h.bind hr fun a => carries_pure (hF a)

/-- The last rule of several. -/
lemma last (h : k.Unnoticed) (hr : k.Carries k.Inner k.Outer f r r') {F : α → γ} {F' : β → δ}
    (hF : ∀ a, g (F a) = F' (f a)) : k.Carries k.Inner k.Outer g (F <$> r) (F' <$> r') :=
  Carries.bind hr h.outer_of_total fun a => carries_pure (hF a)

/-- What is taken is taken from the changed cursor too. -/
lemma acceptBind (h : k.Unnoticed) {p : Kind → Bool} {F : Option Token → Rule γ}
    {F' : Option Token → Rule δ} (hnone : k.Carries k.Inner Q g (F none) (F' none))
    (hsome : ∀ t, k.Carries k.Inner Q g (F (some t)) (F' (some (k.edit.token t)))) :
    k.Carries k.Inner Q g (Grammar.accept p >>= F) (Grammar.accept p >>= F') := by
  refine h.bind (h.accept p) fun o => ?_
  cases o with
  | none => exact hnone
  | some t => exact hsome t

lemma require (h : k.Unnoticed) {b : Bool} {t : Token} {e : Fault} :
    k.Carries k.Inner k.Inner id (Grammar.require b t e)
      (Grammar.require b (k.edit.token t) e) := by
  cases b with
  | true => exact carries_pure rfl
  | false => exact h.report t e

lemma unlessSees (h : k.Unnoticed) {s : Symbol} {a : α} {b : β} (hab : f a = b)
    (hr : k.Carries k.Inner k.Inner f r r') :
    k.Carries k.Inner k.Inner f (Grammar.unlessSees s a r) (Grammar.unlessSees s b r') := by
  refine h.bind (h.sees _) fun seen => ?_
  cases seen with
  | true => exact carries_pure hab
  | false => exact hr

end Unnoticed

/-! ### Expressions -/

lemma edit_link (k : Edit) (l : Level) (left : Expr) (op : Token) (right : Expr) :
    (l.link left op right).edit k = l.link (left.edit k) (k.token op) (right.edit k) := by
  cases l <;> rfl

/-- The rules for expressions carry over, with `n` steps. -/
structure ExprCarries (k : Change) (n : ℕ) : Prop where
  expr : ∀ l, k.Carries k.Inner k.Inner (Expr.edit k.edit) (expr n l) (expr n l)
  chain : ∀ l e, k.Carries k.Inner k.Inner (Expr.edit k.edit) (chain n l e)
    (chain n l (e.edit k.edit))
  suffixes : ∀ e, k.Carries k.Inner k.Inner (Expr.edit k.edit) (suffixes n e)
    (suffixes n (e.edit k.edit))
  argumentList : ∀ found, k.Carries k.Inner k.Inner (List.map (Expr.edit k.edit))
    (argumentList n found) (argumentList n (found.map (Expr.edit k.edit)))
  primary : k.Carries k.Inner k.Inner (Expr.edit k.edit) (primary n) (primary n)

namespace Unnoticed

lemma assignTo (h : k.Unnoticed) (target : Expr) (equals : Token) (value : Expr) :
    k.Carries k.Inner k.Inner (Expr.edit k.edit) (assignTo target equals value)
      (assignTo (target.edit k.edit) (k.edit.token equals) (value.edit k.edit)) := by
  cases target with
  | reference id name => exact h.bind h.freshId fun _ => carries_pure rfl
  | property object name => exact carries_pure rfl
  | _ => exact h.bind (h.report equals _) fun _ => carries_pure rfl

lemma exprCarries (h : k.Unnoticed) (n : ℕ) : ExprCarries k n := by
  induction n with
  | zero => constructor <;> intros <;> exact carries_exhausted
  | succ n ih =>
    constructor
    · intro l
      cases l with
      | assignment =>
        rw [Grammar.expr]
        refine h.bind (ih.expr _) fun target => h.acceptBind (carries_pure rfl) fun equals => ?_
        exact h.bind (ih.expr _) fun value => h.assignTo target equals value
      | conditional =>
        rw [Grammar.expr]
        refine h.bind (ih.expr _) fun condition => h.acceptBind (carries_pure rfl) fun _ => ?_
        exact h.bind (ih.expr _) fun whenTrue => h.bind (h.expectInner _ _) fun _ =>
          h.bind (ih.expr _) fun whenFalse => carries_pure rfl
      | unary =>
        rw [Grammar.expr]
        exact h.acceptBind (ih.expr _) fun op => h.bind (ih.expr _) fun _ => carries_pure rfl
      | call => exact h.bind (ih.expr _) ih.suffixes
      | primary => exact ih.primary
      | _ => exact h.bind (ih.expr _) (ih.chain _)
    · intro l e
      rw [Grammar.chain, Grammar.chain]
      refine h.acceptBind (carries_pure rfl) fun op => h.bind (ih.expr _) fun right => ?_
      rw [← edit_link]
      exact ih.chain _ _
    · intro e
      rw [Grammar.suffixes, Grammar.suffixes]
      refine h.bind h.peek fun t => ?_
      rw [Edit.kind_token]
      split
      · refine h.bind h.advance fun _ => h.bind (h.unlessSees rfl (ih.argumentList []))
          fun args => ?_
        refine h.bind (h.expectInner _ _) fun paren => ?_
        have hcall : (Expr.call e paren args).edit k.edit = .call (e.edit k.edit)
            (k.edit.token paren) (args.map (Expr.edit k.edit)) := by simp [Expr.edit]
        rw [← hcall]
        exact ih.suffixes _
      · exact h.bind h.advance fun _ => h.bind (h.expectInner _ _) fun name =>
          ih.suffixes (.property e name)
      · exact carries_pure rfl
    · intro found
      rw [Grammar.argumentList, Grammar.argumentList, List.length_map]
      refine h.bind h.peek fun _ => h.bind h.require fun _ => h.bind (ih.expr _) fun e =>
        h.acceptBind (carries_pure ?_) fun _ => ih.argumentList (e :: found)
      rw [List.map_reverse, List.map_cons]
    · rw [Grammar.primary]
      refine h.bind h.peek fun t => ?_
      rw [Edit.kind_token]
      split
      case h_4 => exact h.bind h.advance fun _ => h.bind h.freshId fun _ => carries_pure rfl
      case h_7 => exact h.bind h.advance fun _ => h.bind h.freshId fun _ => carries_pure rfl
      case h_8 =>
        exact h.bind h.advance fun _ => h.bind (ih.expr _) fun _ =>
          h.bind (h.expectInner _ _) fun _ => carries_pure rfl
      case h_9 =>
        split
        · exact h.bind h.advance fun _ => h.bind (h.report t _) fun _ => ih.expr _
        · exact h.fail _ _
      all_goals exact h.bind h.advance fun _ => carries_pure rfl

/-! ### Simple statements -/

lemma expression (h : k.Unnoticed) (n : ℕ) :
    k.Carries k.Inner k.Inner (Expr.edit k.edit) (expression n) (expression n) :=
  (h.exprCarries n).expr _

lemma someExpression (h : k.Unnoticed) (n : ℕ) :
    k.Carries k.Inner k.Inner (Option.map (Expr.edit k.edit)) (some <$> Grammar.expression n)
      (some <$> Grammar.expression n) :=
  h.map (h.expression n) fun _ => rfl

lemma varDeclaration (h : k.Unnoticed) (n : ℕ) :
    k.Carries k.Inner k.Outer (Stmt.edit k.edit) (varDeclaration n) (varDeclaration n) := by
  have hinitial : k.Carries k.Inner k.Inner (Option.map (Expr.edit k.edit)) (initializer n)
      (initializer n) := h.acceptBind (carries_pure rfl) fun _ => h.someExpression n
  exact h.bind (h.expectInner _ _) fun name => h.bind hinitial fun initial =>
    h.last (h.expect _ _) fun _ => rfl

lemma expressionStatement (h : k.Unnoticed) (n : ℕ) :
    k.Carries k.Inner k.Outer (Stmt.edit k.edit) (expressionStatement n)
      (expressionStatement n) :=
  h.bind (h.expression n) fun _ => h.last (h.expect _ _) fun _ => rfl

lemma printStatement (h : k.Unnoticed) (n : ℕ) :
    k.Carries k.Inner k.Outer (Stmt.edit k.edit) (printStatement n) (printStatement n) :=
  h.bind (h.expression n) fun _ => h.last (h.expect _ _) fun _ => rfl

lemma breakStatement (h : k.Unnoticed) (inLoop : Bool) (keyword : Token) :
    k.Carries k.Inner k.Outer (Stmt.edit k.edit) (breakStatement inLoop keyword)
      (breakStatement inLoop (k.edit.token keyword)) :=
  h.bind h.require fun _ => h.last (h.expect _ _) fun _ => rfl

lemma returnStatement (h : k.Unnoticed) (n : ℕ) (keyword : Token) :
    k.Carries k.Inner k.Outer (Stmt.edit k.edit) (returnStatement n keyword)
      (returnStatement n (k.edit.token keyword)) :=
  h.bind (h.unlessSees rfl (h.someExpression n)) fun _ => h.last (h.expect _ _) fun _ => rfl

lemma parameterList (h : k.Unnoticed) (n : ℕ) (found : List Token) :
    k.Carries k.Inner k.Inner (List.map k.edit.token) (parameterList n found)
      (parameterList n (found.map k.edit.token)) := by
  induction n generalizing found with
  | zero => exact carries_exhausted
  | succ n ih =>
    rw [Grammar.parameterList, Grammar.parameterList, List.length_map]
    refine h.bind h.peek fun _ => h.bind h.require fun _ => h.bind (h.expectInner _ _) fun name =>
      h.acceptBind (carries_pure ?_) fun _ => ih (name :: found)
    rw [List.map_reverse, List.map_cons]

lemma parameters (h : k.Unnoticed) (n : ℕ) (sort : FunctionSort) :
    k.Carries k.Inner k.Inner (Option.map (List.map k.edit.token)) (parameters n sort)
      (parameters n sort) := by
  refine h.bind (h.sees _) fun brace => ?_
  rw [id]
  split
  · exact carries_pure rfl
  · exact h.bind (h.expectInner _ _) fun _ => h.bind (h.unlessSees rfl (h.parameterList n []))
      fun _ => h.bind (h.expectInner _ _) fun _ => carries_pure rfl

end Unnoticed

/-! ### For loops -/

def editHead (k : Edit) (head : ForHead) : ForHead :=
  ⟨head.first.map (Stmt.edit k), head.condition.map (Expr.edit k), head.increment.map (Expr.edit k)⟩

lemma edit_loop (k : Edit) (head : ForHead) (body : Stmt) :
    (head.loop body).edit k = (editHead k head).loop (body.edit k) := by
  obtain ⟨first, condition, increment⟩ := head
  cases first <;> cases condition <;> cases increment <;> rfl

namespace Unnoticed

lemma forFirst (h : k.Unnoticed) (n : ℕ) :
    k.Carries k.Inner k.Inner (Option.map (Stmt.edit k.edit)) (forFirst n) (forFirst n) := by
  refine h.acceptBind ?_ fun _ => carries_pure rfl
  refine h.acceptBind (h.map ?_ fun _ => rfl) fun _ => h.map ?_ fun _ => rfl
  · exact (h.expressionStatement n).mono h.outer_of_inner
  · exact (h.varDeclaration n).mono h.outer_of_inner

lemma forHead (h : k.Unnoticed) (n : ℕ) :
    k.Carries k.Inner k.Inner (editHead k.edit) (forHead n) (forHead n) :=
  h.bind (h.expectInner _ _) fun _ => h.bind (h.forFirst n) fun _ =>
    h.bind (h.unlessSees rfl (h.someExpression n)) fun _ => h.bind (h.expectInner _ _) fun _ =>
      h.bind (h.unlessSees rfl (h.someExpression n)) fun _ => h.bind (h.expectInner _ _) fun _ =>
        carries_pure rfl

end Unnoticed

/-! ### Declarations -/

/-- The rules for declarations and statements carry over, with `n` steps. -/
structure StmtCarries (k : Change) (n : ℕ) : Prop where
  declaration : ∀ b, k.Carries k.Inner k.Outer (Option.map (Stmt.edit k.edit))
    (declaration n b) (declaration n b)
  statement : ∀ b, k.Carries k.Inner k.Outer (Stmt.edit k.edit) (statement n b) (statement n b)
  block : ∀ b found, k.Carries k.Inner k.Outer (List.map (Stmt.edit k.edit)) (block n b found)
    (block n b (found.map (Stmt.edit k.edit)))
  function : ∀ sort, k.Carries k.Inner k.Outer (FunctionDecl.edit k.edit) (function n sort)
    (function n sort)
  classDeclaration : k.Carries k.Inner k.Outer (Stmt.edit k.edit) (classDeclaration n)
    (classDeclaration n)
  members : ∀ ms ss, k.Carries k.Inner k.Inner
    (Prod.map (List.map (FunctionDecl.edit k.edit)) (List.map (FunctionDecl.edit k.edit)))
    (members n ms ss)
    (members n (ms.map (FunctionDecl.edit k.edit)) (ss.map (FunctionDecl.edit k.edit)))

lemma map_toList_append {f : α → β} (o : Option α) (found : List α) :
    (o.toList ++ found).map f = (o.map f).toList ++ found.map f := by
  cases o <;> rfl

namespace Unnoticed

lemma stmtCarries (h : k.Unnoticed) (n : ℕ) : StmtCarries k n := by
  induction n with
  | zero => constructor <;> intros <;> exact carries_exhausted
  | succ n ih =>
    constructor
    · intro b
      rw [Grammar.declaration]
      refine h.recovering (h.bind h.peek fun t => ?_)
      rw [Edit.kind_token]
      split
      · exact h.bind h.advance fun _ => ih.classDeclaration
      · exact h.bind h.advance fun _ => h.last (ih.function _) fun _ => rfl
      · exact h.bind h.advance fun _ => h.varDeclaration n
      · exact ih.statement b
    · intro b
      rw [Grammar.statement]
      refine h.bind h.peek fun t => ?_
      rw [Edit.kind_token]
      split
      · exact h.bind h.advance fun _ => h.bind (h.forHead n) fun head =>
          h.last (ih.statement _) fun body => edit_loop ..
      · refine h.bind h.advance fun _ => h.bind (h.expectInner _ _) fun _ =>
          h.bind (h.expression n) fun condition => h.bind (h.expectInner _ _) fun _ => ?_
        -- the word `else` is looked for at the end of the tokens too
        refine Carries.bind (ih.statement b) h.outer_of_total fun whenTrue =>
          Carries.bind h.acceptElse h.outer_of_total fun o => ?_
        cases o with
        | none => exact carries_pure rfl
        | some word =>
          refine Carries.weaken ?_ h.outer_of_inner
          exact h.last (ih.statement b) fun whenFalse => Stmt.edit_branch _ _ _ (some whenFalse)
      · exact h.bind h.advance fun _ => h.bind (h.expectInner _ _) fun _ =>
          h.bind (h.expression n) fun condition => h.bind (h.expectInner _ _) fun _ =>
            h.last (ih.statement _) fun _ => rfl
      · exact h.bind h.advance fun _ => h.breakStatement b t
      · exact h.bind h.advance fun _ => h.returnStatement n t
      · refine h.bind h.advance fun _ => h.last (ih.block b []) fun body => ?_
        rw [Stmt.edit_block]
      · exact h.bind h.advance fun _ => h.printStatement n
      · exact h.expressionStatement n
    · intro b found
      rw [Grammar.block, Grammar.block]
      refine h.bind h.atEnd fun atEnd => h.bind (h.sees _) fun closing => ?_
      rw [id, id]
      split
      · refine h.last (h.expect _ _) fun _ => ?_
        rw [List.map_reverse]
      · refine h.bind ((ih.declaration _).mono h.outer_of_inner) fun s => ?_
        rw [← map_toList_append]
        exact ih.block b _
    · intro sort
      rw [Grammar.function]
      refine h.bind (h.expectInner _ _) fun name => h.bind (h.parameters n _) fun params =>
        h.bind (h.expectInner _ _) fun _ => h.last (ih.block _ []) fun body => ?_
      rw [FunctionDecl.edit, Stmt.editDecl, Stmt.editEach_eq_map]
    · rw [Grammar.classDeclaration]
      refine h.bind (h.expectInner _ _) fun name => h.bind (h.expectInner _ _) fun _ =>
        h.bind (ih.members [] []) fun ms => h.last (h.expect _ _) fun _ => ?_
      exact Stmt.edit_classDecl ..
    · intro ms ss
      rw [Grammar.members, Grammar.members]
      refine h.bind h.atEnd fun atEnd => h.bind (h.sees _) fun closing => ?_
      rw [id, id]
      split
      · refine carries_pure ?_
        rw [Prod.map, List.map_reverse, List.map_reverse]
      · refine h.acceptBind ?_ fun _ => ?_
        · exact h.bind ((ih.function _).mono h.outer_of_inner) fun m => ih.members (m :: ms) ss
        · exact h.bind ((ih.function _).mono h.outer_of_inner) fun m => ih.members ms (m :: ss)

lemma declarations (h : k.Unnoticed) (n : ℕ) (found : List Stmt) :
    k.Carries k.Inner k.Inner (List.map (Stmt.edit k.edit)) (declarations n found)
      (declarations n (found.map (Stmt.edit k.edit))) := by
  induction n generalizing found with
  | zero => exact carries_exhausted
  | succ n ih =>
    rw [Grammar.declarations, Grammar.declarations]
    refine h.bind h.atEnd fun atEnd => ?_
    rw [id]
    split
    · exact carries_pure List.map_reverse
    · refine h.bind (((h.stmtCarries n).declaration _).mono h.outer_of_inner) fun s => ?_
      rw [← map_toList_append]
      exact ih _

end Unnoticed

end Change

end Lox.Grammar
