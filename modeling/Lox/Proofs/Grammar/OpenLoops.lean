import Mathlib.Data.List.TakeWhile
import Lox.Proofs.Grammar.Allowance

/-!
Loops that are open, counted.

The rules for statements are told whether a `break` is in order. Here they find out by themselves:
they count the loops around them, from zero again in the body of a function, and set the count back
when the body is over or was given up. A second account, of all constructs that are open and of each
`break` that is read as a statement, does not take part in the reading.
The rules with the count read what the ones without it do. The count is always set back, and it
comes to nothing exactly where no loop was opened inside the innermost function.
-/

namespace Lox.Grammar

variable {α β : Type}

/-- What may stand open around a statement. -/
inductive Construct
  | loopBody
  | functionBody
  | classBody
  | block
  | branch
deriving DecidableEq

namespace Construct

/-- The count of loops inside of a construct. -/
def inside : Construct → ℕ → ℕ
  | loopBody, d => d + 1
  | functionBody, _ => 0
  | _, d => d

/-- The count after a construct. For a function it is set back to what it was before. -/
def restore : Construct → ℕ → ℕ → ℕ
  | loopBody, _, d => d - 1
  | functionBody, before, _ => before
  | _, _, d => d

lemma restore_inside (k : Construct) (d : ℕ) : k.restore d (k.inside d) = d := by
  cases k <;> rfl

end Construct

/-- How many loops stand open inside the innermost function. -/
def loopsAround (ks : List Construct) : ℕ := (ks.takeWhile (· ≠ .functionBody)).count .loopBody

/-- No loop stands open inside the innermost function. -/
def Loopless (ks : List Construct) : Prop := .loopBody ∉ ks.takeWhile (· ≠ .functionBody)

instance (ks : List Construct) : Decidable (Loopless ks) := inferInstanceAs (Decidable (¬ _ ∈ _))

lemma loopsAround_eq_zero {ks : List Construct} : loopsAround ks = 0 ↔ Loopless ks :=
  List.count_eq_zero

lemma loopsAround_cons (k : Construct) (ks : List Construct) :
    loopsAround (k :: ks) = k.inside (loopsAround ks) := by
  cases k <;> simp [loopsAround, Construct.inside]

/-- What is kept while statements are read. -/
structure Account where
  /-- The count of the loops. -/
  depth : ℕ
  /-- The constructs that are open, innermost first. -/
  opened : List Construct
  /-- Each `break` that was read as a statement, with the constructs open at it, the latest
  first. -/
  breaks : List (Token × List Construct)

/-- A rule with an account, which is kept whether the rule succeeds or fails. -/
def Counted (α : Type) := Account → Cursor → Account × Outcome α

namespace Counted

protected def pure (x : α) : Counted α := fun a c => (a, .done x c)

protected def bind (r : Counted α) (f : α → Counted β) : Counted β := fun a c =>
  match r a c with
  | (a, .done x c) => f x a c
  | (a, .failed e c) => (a, .failed e c)
  | (a, .exhausted) => (a, .exhausted)

instance : Monad Counted where
  pure := Counted.pure
  bind := Counted.bind

theorem bind_apply (r : Counted α) (f : α → Counted β) (a : Account) (c : Cursor) :
    (r >>= f) a c =
      match r a c with
      | (a, .done x c) => f x a c
      | (a, .failed e c) => (a, .failed e c)
      | (a, .exhausted) => (a, .exhausted) :=
  rfl

/-- A rule that reads no statement has no use for the account. -/
def lift (r : Rule α) : Counted α := fun a c => (a, r c)

instance : MonadLift Rule Counted := ⟨lift⟩

/-- Reads what is inside of a construct. -/
def within (k : Construct) (r : Counted α) : Counted α := fun a c =>
  let (a', o) := r { a with depth := k.inside a.depth, opened := k :: a.opened } c
  ({ a' with depth := k.restore a.depth a'.depth, opened := a'.opened.tail }, o)

def recovering (r : Counted α) : Counted (Option α) := fun a c =>
  ((r a c).1, Grammar.recovering (fun c => (r a c).2) c)

/-- A break statement, its word having been read. -/
def breakStatement (keyword : Token) : Counted Stmt := fun a c =>
  ({ a with breaks := (keyword, a.opened) :: a.breaks },
    Grammar.breakStatement (a.depth ≠ 0) keyword c)

mutual

def declaration : Nat → Counted (Option Stmt)
  | 0 => lift Rule.exhausted
  | n + 1 => recovering (do
    let t ← lift peek
    match t.kind with
    | .keyword .kwClass => do lift advance; classDeclaration n
    | .keyword .kwFun => do lift advance; .function <$> function n .function
    | .keyword .kwVar => lift (do advance; varDeclaration n)
    | _ => statement n)

def statement : Nat → Counted Stmt
  | 0 => lift Rule.exhausted
  | n + 1 => do
    let t ← lift peek
    match t.kind with
    | .keyword .kwFor =>
      lift advance
      let head ← lift (forHead n)
      head.loop <$> within .loopBody (statement n)
    | .keyword .kwIf =>
      lift advance
      let _ ← lift (expectSymbol .leftParen (.afterKeyword .kwIf))
      let condition ← lift (expression n)
      let _ ← lift (expectSymbol .rightParen .afterIfCondition)
      let whenTrue ← within .branch (statement n)
      match ← lift (acceptKeyword .kwElse) with
      | some _ => (.branch condition whenTrue ∘ some) <$> within .branch (statement n)
      | none => pure (.branch condition whenTrue none)
    | .keyword .kwWhile =>
      lift advance
      let _ ← lift (expectSymbol .leftParen (.afterKeyword .kwWhile))
      let condition ← lift (expression n)
      let _ ← lift (expectSymbol .rightParen .afterCondition)
      .loop condition <$> within .loopBody (statement n)
    | .keyword .kwBreak => do lift advance; breakStatement t
    | .keyword .kwReturn => lift (do advance; returnStatement n t)
    | .symbol .leftBrace => do lift advance; .block <$> within .block (block n [])
    | .keyword .kwPrint => lift (do advance; printStatement n)
    | _ => lift (expressionStatement n)

def block : Nat → List Stmt → Counted (List Stmt)
  | 0, _ => lift Rule.exhausted
  | n + 1, found => do
    if (← lift atEnd) || (← lift (seesSymbol .rightBrace)) then
      let _ ← lift (expectSymbol .rightBrace .afterBlock)
      pure found.reverse
    else
      let s ← declaration n
      block n (s.toList ++ found)

def function : Nat → FunctionSort → Counted FunctionDecl
  | 0, _ => lift Rule.exhausted
  | n + 1, sort => do
    let name ← lift (expectName (.ofFunction sort))
    let params ← lift (parameters n sort)
    let _ ← lift (expectSymbol .leftBrace (.functionBody sort))
    let body ← within .functionBody (block n [])
    pure ⟨name, params, body⟩

def classDeclaration : Nat → Counted Stmt
  | 0 => lift Rule.exhausted
  | n + 1 => do
    let name ← lift (expectName .ofClass)
    let _ ← lift (expectSymbol .leftBrace .classBody)
    let (methods, statics) ← within .classBody (members n [] [])
    let _ ← lift (expectSymbol .rightBrace .afterClassBody)
    pure (.classDecl name methods statics)

def members : Nat → List FunctionDecl → List FunctionDecl →
    Counted (List FunctionDecl × List FunctionDecl)
  | 0, _, _ => lift Rule.exhausted
  | n + 1, methods, statics => do
    if (← lift atEnd) || (← lift (seesSymbol .rightBrace)) then
      pure (methods.reverse, statics.reverse)
    else
      match ← lift (acceptKeyword .kwClass) with
      | some _ =>
        let m ← function n .method
        members n methods (m :: statics)
      | none =>
        let m ← function n .method
        members n (m :: methods) statics

end

def declarations : Nat → List Stmt → Counted (List Stmt)
  | 0, _ => lift Rule.exhausted
  | n + 1, found => do
    if ← lift atEnd then pure found.reverse
    else
      let s ← declaration n
      declarations n (s.toList ++ found)

end Counted

/-! ### Complaints about breaks -/

/-- The complaint is that a `break` stands outside of every loop. -/
def isStray : Complaint → Bool
  | .grammar _ _ .breakOutsideLoop => true
  | _ => false

def strays (cs : List Complaint) : List Complaint := cs.filter isStray

/-- All complaints, the latest first, that of a failure included. -/
def Outcome.complaints? : Outcome α → Option (List Complaint)
  | .done _ c => some c.complaints
  | .failed e c => some (e :: c.complaints)
  | .exhausted => none

/-- The rule does not complain about breaks. -/
def Rule.Spares (r : Rule α) : Prop :=
  ∀ c, ∀ cs ∈ (r c).complaints?, strays cs = strays c.complaints

lemma strays_cons {t : Token} {f : Fault} (hf : f ≠ .breakOutsideLoop) (cs : List Complaint) :
    strays (complaint t f :: cs) = strays cs := by
  refine List.filter_cons_of_neg ?_
  cases f <;> first | exact absurd rfl hf | exact Bool.false_ne_true

namespace Rule

variable {r : Rule α} {f : α → Rule β}

lemma spares_pure (x : α) : (pure x : Rule α).Spares := by
  rintro c _ ⟨⟩
  rfl

lemma spares_exhausted : (exhausted : Rule α).Spares := nofun

lemma Spares.bind (h : r.Spares) (hf : ∀ x, (f x).Spares) : (r >>= f).Spares := by
  intro c cs hcs
  rw [bind_apply] at hcs
  have hr := h c
  revert hr hcs
  cases r c with
  | done x c₁ => exact fun hcs hr => (hf x c₁ cs hcs).trans (hr _ rfl)
  | failed e c₁ => exact fun hcs hr => hr cs hcs
  | exhausted => exact fun hcs => nomatch hcs

lemma Spares.map (h : r.Spares) (g : α → β) : (g <$> r).Spares := h.bind fun _ => spares_pure _

lemma spares_peek : peek.Spares := by
  rintro c _ ⟨⟩
  rfl

lemma spares_atEnd : atEnd.Spares := by
  rintro c _ ⟨⟩
  rfl

lemma spares_sees (p : Kind → Bool) : (sees p).Spares := by
  rintro c _ ⟨⟩
  rfl

lemma spares_advance : advance.Spares := by
  rintro c _ ⟨⟩
  rfl

lemma spares_freshId : freshId.Spares := by
  rintro c _ ⟨⟩
  rfl

lemma spares_accept (p : Kind → Bool) : (accept p).Spares := by
  intro c cs hcs
  unfold accept at hcs
  split at hcs
  · cases hcs
    rfl
  · split at hcs <;> cases hcs <;> rfl

lemma spares_accept_bind {p : Kind → Bool} {f : Option Token → Rule β} (hnone : (f none).Spares)
    (hsome : ∀ t, (f (some t)).Spares) : (accept p >>= f).Spares :=
  (spares_accept p).bind fun o => by
    cases o with
    | none => exact hnone
    | some t => exact hsome t

lemma spares_expect (p : Kind → Bool) {e : Fault} (he : e ≠ .breakOutsideLoop) :
    (expect p e).Spares := by
  intro c cs hcs
  unfold expect at hcs
  split at hcs
  · cases hcs
    exact strays_cons he _
  · split at hcs <;> cases hcs
    · rfl
    · exact strays_cons he _

lemma spares_fail {e : Fault} (he : e ≠ .breakOutsideLoop) : (fail e : Rule α).Spares := by
  rintro c _ ⟨⟩
  exact strays_cons he _

lemma spares_report (t : Token) {e : Fault} (he : e ≠ .breakOutsideLoop) : (report t e).Spares := by
  rintro c _ ⟨⟩
  exact strays_cons he _

lemma spares_require (b : Bool) (t : Token) {e : Fault} (he : e ≠ .breakOutsideLoop) :
    (require b t e).Spares := by
  cases b with
  | true => exact spares_pure _
  | false => exact spares_report t he

lemma Spares.unlessSees (h : r.Spares) (s : Symbol) (x : α) : (unlessSees s x r).Spares :=
  (spares_sees _).bind fun seen => by
    cases seen with
    | true => exact spares_pure x
    | false => exact h

end Rule

open Rule

lemma spares_assignTo (target : Expr) (equals : Token) (value : Expr) :
    (assignTo target equals value).Spares := by
  cases target with
  | reference id name => exact spares_freshId.bind fun _ => spares_pure _
  | property object name => exact spares_pure _
  | _ => exact (spares_report equals (by simp)).bind fun _ => spares_pure _

/-- The rules for expressions, with `n` steps, do not complain about breaks. -/
structure ExprSpares (n : ℕ) : Prop where
  expr : ∀ l, (expr n l).Spares
  chain : ∀ l e, (chain n l e).Spares
  suffixes : ∀ e, (suffixes n e).Spares
  argumentList : ∀ found, (argumentList n found).Spares
  primary : (primary n).Spares

lemma exprSpares (n : ℕ) : ExprSpares n := by
  induction n with
  | zero => constructor <;> intros <;> exact spares_exhausted
  | succ n ih =>
    constructor
    · intro l
      cases l with
      | assignment =>
        rw [Grammar.expr]
        refine (ih.expr _).bind fun target => spares_accept_bind (spares_pure _) fun equals => ?_
        exact (ih.expr _).bind fun value => spares_assignTo target equals value
      | conditional =>
        rw [Grammar.expr]
        refine (ih.expr _).bind fun condition => spares_accept_bind (spares_pure _) fun _ => ?_
        exact (ih.expr _).bind fun _ => (spares_expect _ (by simp)).bind fun _ =>
          (ih.expr _).bind fun _ => spares_pure _
      | unary =>
        rw [Grammar.expr]
        exact spares_accept_bind (ih.expr _) fun op => (ih.expr _).bind fun _ => spares_pure _
      | call => exact (ih.expr _).bind ih.suffixes
      | primary => exact ih.primary
      | _ => exact (ih.expr _).bind (ih.chain _)
    · intro l e
      rw [Grammar.chain]
      exact spares_accept_bind (spares_pure _) fun op => (ih.expr _).bind fun _ => ih.chain _ _
    · intro e
      rw [Grammar.suffixes]
      refine spares_peek.bind fun t => ?_
      split
      · exact spares_advance.bind fun _ => ((ih.argumentList _).unlessSees _ _).bind fun _ =>
          (spares_expect _ (by simp)).bind fun _ => ih.suffixes _
      · exact spares_advance.bind fun _ => (spares_expect _ (by simp)).bind fun _ => ih.suffixes _
      · exact spares_pure _
    · intro found
      rw [Grammar.argumentList]
      exact spares_peek.bind fun _ => (spares_require _ _ (by simp)).bind fun _ =>
        (ih.expr _).bind fun _ => spares_accept_bind (spares_pure _) fun _ => ih.argumentList _
    · rw [Grammar.primary]
      refine spares_peek.bind fun t => ?_
      split
      case h_4 => exact spares_advance.bind fun _ => spares_freshId.bind fun _ => spares_pure _
      case h_7 => exact spares_advance.bind fun _ => spares_freshId.bind fun _ => spares_pure _
      case h_8 =>
        exact spares_advance.bind fun _ => (ih.expr _).bind fun _ =>
          (spares_expect _ (by simp)).bind fun _ => spares_pure _
      case h_9 =>
        split
        · exact spares_advance.bind fun _ => (spares_report _ (by simp)).bind fun _ => ih.expr _
        · exact spares_fail (by simp)
      all_goals exact spares_advance.bind fun _ => spares_pure _

section
variable (n : ℕ)

lemma spares_expression : (expression n).Spares := (exprSpares n).expr _

lemma spares_varDeclaration : (varDeclaration n).Spares := by
  refine (spares_expect _ (by simp)).bind fun name => ?_
  refine Spares.bind ?_ fun initial => (spares_expect _ (by simp)).bind fun _ => spares_pure _
  exact spares_accept_bind (spares_pure _) fun _ => (spares_expression n).map _

lemma spares_expressionStatement : (expressionStatement n).Spares :=
  (spares_expression n).bind fun _ => (spares_expect _ (by simp)).bind fun _ => spares_pure _

lemma spares_printStatement : (printStatement n).Spares :=
  (spares_expression n).bind fun _ => (spares_expect _ (by simp)).bind fun _ => spares_pure _

lemma spares_returnStatement (keyword : Token) : (returnStatement n keyword).Spares :=
  (((spares_expression n).map _).unlessSees _ _).bind fun _ =>
    (spares_expect _ (by simp)).bind fun _ => spares_pure _

lemma spares_parameterList (found : List Token) : (parameterList n found).Spares := by
  induction n generalizing found with
  | zero => exact spares_exhausted
  | succ n ih =>
    rw [parameterList]
    exact spares_peek.bind fun _ => (spares_require _ _ (by simp)).bind fun _ =>
      (spares_expect _ (by simp)).bind fun _ => spares_accept_bind (spares_pure _) fun _ => ih _

lemma spares_parameters (sort : FunctionSort) : (parameters n sort).Spares := by
  refine (spares_sees _).bind fun _ => ?_
  split
  · exact spares_pure _
  · exact (spares_expect _ (by simp)).bind fun _ =>
      ((spares_parameterList n _).unlessSees _ _).bind fun _ =>
        (spares_expect _ (by simp)).bind fun _ => spares_pure _

lemma spares_forFirst : (forFirst n).Spares := by
  refine spares_accept_bind ?_ fun _ => spares_pure _
  exact spares_accept_bind ((spares_expressionStatement n).map _) fun _ =>
    (spares_varDeclaration n).map _

lemma spares_forHead : (forHead n).Spares :=
  (spares_expect _ (by simp)).bind fun _ => (spares_forFirst n).bind fun _ =>
    (((spares_expression n).map _).unlessSees _ _).bind fun _ =>
      (spares_expect _ (by simp)).bind fun _ =>
        (((spares_expression n).map _).unlessSees _ _).bind fun _ =>
          (spares_expect _ (by simp)).bind fun _ => spares_pure _

end

/-! ### Counting -/

/-- The complaints that there should be about breaks, with the constructs open at each. -/
def strayed (breaks : List (Token × List Construct)) : List Complaint :=
  (breaks.filter (Loopless ·.2)).map (complaint ·.1 .breakOutsideLoop)

lemma strayed_append (xs ys : List (Token × List Construct)) :
    strayed (xs ++ ys) = strayed xs ++ strayed ys := by
  unfold strayed
  rw [List.filter_append, List.map_append]

/-- With a count of `d` loops and the constructs `ks` open, the rule with an account does what the
other does, and sets the account back. If the count is right, the complaints about breaks are those
that there should be. -/
def Counted.Agrees (d : ℕ) (ks : List Construct) (r : Counted α) (r' : Rule α) : Prop :=
  ∀ breaks c, ∃ new, r ⟨d, ks, breaks⟩ c = (⟨d, ks, new ++ breaks⟩, r' c) ∧
    (d = loopsAround ks → ∀ cs ∈ (r' c).complaints?, strays cs = strayed new ++ strays c.complaints)

namespace Counted

variable {d : ℕ} {ks : List Construct} {k : Construct} {r : Counted α} {r' : Rule α}

lemma agrees_lift (h : r'.Spares) : (lift r').Agrees d ks r' :=
  fun _ c => ⟨[], rfl, fun _ cs hcs => h c cs hcs⟩

lemma agrees_pure (x : α) : (pure x : Counted α).Agrees d ks (pure x) :=
  agrees_lift (spares_pure x)

lemma Agrees.bind {f : α → Counted β} {f' : α → Rule β} (h : r.Agrees d ks r')
    (hf : ∀ x, (f x).Agrees d ks (f' x)) : (r >>= f).Agrees d ks (r' >>= f') := by
  intro breaks c
  obtain ⟨new, hr, hnew⟩ := h breaks c
  rw [Counted.bind_apply, hr, Rule.bind_apply]
  cases ho : r' c with
  | done x c₁ =>
    rw [ho] at hnew
    obtain ⟨new', hx, hnew'⟩ := hf x (new ++ breaks) c₁
    refine ⟨new' ++ new, by rw [List.append_assoc]; exact hx, fun hd cs hcs => ?_⟩
    rw [strayed_append, List.append_assoc, ← hnew hd _ rfl]
    exact hnew' hd cs hcs
  | failed e c₁ => exact ⟨new, rfl, fun hd cs hcs => hnew hd cs (ho ▸ hcs)⟩
  | exhausted => exact ⟨new, rfl, nofun⟩

lemma Agrees.map (h : r.Agrees d ks r') (g : α → β) : (g <$> r).Agrees d ks (g <$> r') :=
  h.bind fun _ => agrees_pure _

lemma agrees_lift_bind {r' : Rule α} {f : α → Counted β} {f' : α → Rule β} (h : r'.Spares)
    (hf : ∀ x, (f x).Agrees d ks (f' x)) : (lift r' >>= f).Agrees d ks (r' >>= f') :=
  (agrees_lift h).bind hf

lemma Agrees.recovering (h : r.Agrees d ks r') :
    (recovering r).Agrees d ks (Grammar.recovering r') := by
  intro breaks c
  obtain ⟨new, hr, hnew⟩ := h breaks c
  have hreads : Grammar.recovering (fun c => (r ⟨d, ks, breaks⟩ c).2) c =
      Grammar.recovering r' c := by
    unfold Grammar.recovering
    dsimp only
    rw [hr]
  refine ⟨new, ?_, fun hd cs hcs => hnew hd cs ?_⟩
  · unfold Counted.recovering
    rw [hreads, hr]
  · -- the complaint of the failure is recorded
    unfold Grammar.recovering at hcs
    revert hcs
    cases r' c <;> exact id

/-- Whatever became of what is inside of a construct, the account is what it was before. -/
lemma Agrees.within (h : r.Agrees (k.inside d) (k :: ks) r') : (within k r).Agrees d ks r' := by
  intro breaks c
  obtain ⟨new, hr, hnew⟩ := h breaks c
  refine ⟨new, ?_, fun hd => hnew ?_⟩
  · unfold Counted.within
    dsimp only
    rw [hr]
    dsimp only
    rw [k.restore_inside]
    rfl
  · rw [loopsAround_cons, ← hd]

lemma strays_breakStatement (b : Bool) (keyword : Token) (c : Cursor) :
    ∀ cs ∈ (Grammar.breakStatement b keyword c).complaints?,
      strays cs = (if b then [] else [complaint keyword .breakOutsideLoop]) ++
        strays c.complaints := by
  have hrest : (do
      let _ ← expectSymbol .semicolon (.afterKeyword .kwBreak)
      pure (Stmt.breakLoop keyword) : Rule Stmt).Spares :=
    (spares_expect _ (by simp)).bind fun _ => spares_pure _
  cases b with
  | true => exact hrest c
  | false =>
    exact hrest { c with complaints := complaint keyword .breakOutsideLoop :: c.complaints }

lemma agrees_breakStatement (keyword : Token) :
    (breakStatement keyword).Agrees d ks (Grammar.breakStatement (d ≠ 0) keyword) := by
  intro breaks c
  refine ⟨[(keyword, ks)], rfl, fun hd cs hcs => ?_⟩
  rw [strays_breakStatement _ _ _ cs hcs]
  congr 1
  by_cases h : Loopless ks
  · simp [strayed, h, hd.trans (loopsAround_eq_zero.mpr h)]
  · have hd0 : d ≠ 0 := fun h0 => h (loopsAround_eq_zero.mp (hd.symm.trans h0))
    simp [strayed, h, hd0]

end Counted

open Counted

/-- The rules for declarations and statements, with `n` steps, read with the count what they read
without it. -/
structure StmtAgrees (n : ℕ) : Prop where
  declaration : ∀ d ks, (Counted.declaration n).Agrees d ks (declaration n (d ≠ 0))
  statement : ∀ d ks, (Counted.statement n).Agrees d ks (statement n (d ≠ 0))
  block : ∀ d ks found, (Counted.block n found).Agrees d ks (block n (d ≠ 0) found)
  function : ∀ d ks sort, (Counted.function n sort).Agrees d ks (function n sort)
  classDeclaration : ∀ d ks, (Counted.classDeclaration n).Agrees d ks (classDeclaration n)
  members : ∀ d ks ms ss, (Counted.members n ms ss).Agrees d ks (members n ms ss)

lemma stmtAgrees (n : ℕ) : StmtAgrees n := by
  induction n with
  | zero => constructor <;> intros <;> exact agrees_lift spares_exhausted
  | succ n ih =>
    -- the body of a loop, with the count that it has there
    have looped : ∀ d ks, (within .loopBody (Counted.statement n)).Agrees d ks
        (Grammar.statement n true) := fun d ks =>
      (ih.statement (d + 1) (.loopBody :: ks)).within (k := .loopBody)
    have branched : ∀ d ks, (within .branch (Counted.statement n)).Agrees d ks
        (Grammar.statement n (d ≠ 0)) := fun d ks =>
      (ih.statement d (.branch :: ks)).within (k := .branch)
    constructor
    · intro d ks
      rw [Counted.declaration, Grammar.declaration]
      refine Agrees.recovering (agrees_lift_bind spares_peek fun t => ?_)
      generalize t.kind = kind
      split
      · exact agrees_lift_bind spares_advance fun _ => ih.classDeclaration d ks
      · exact agrees_lift_bind spares_advance fun _ => (ih.function d ks _).map _
      · exact agrees_lift (spares_advance.bind fun _ => spares_varDeclaration n)
      · -- the tables of both rules have the same arms, and may have been split at once
        try split
        all_goals first | contradiction | exact ih.statement d ks
    · intro d ks
      rw [Counted.statement, Grammar.statement]
      refine agrees_lift_bind spares_peek fun t => ?_
      generalize t.kind = kind
      split
      · exact agrees_lift_bind spares_advance fun _ => agrees_lift_bind (spares_forHead n) fun _ =>
          (looped d ks).map _
      · refine agrees_lift_bind spares_advance fun _ =>
          agrees_lift_bind (spares_expect _ (by simp)) fun _ =>
          agrees_lift_bind (spares_expression n) fun _ =>
          agrees_lift_bind (spares_expect _ (by simp)) fun _ => (branched d ks).bind fun _ =>
          agrees_lift_bind (spares_accept _) fun o => ?_
        cases o with
        | none => exact agrees_pure _
        | some t => exact (branched d ks).map _
      · exact agrees_lift_bind spares_advance fun _ =>
          agrees_lift_bind (spares_expect _ (by simp)) fun _ =>
          agrees_lift_bind (spares_expression n) fun _ =>
          agrees_lift_bind (spares_expect _ (by simp)) fun _ => (looped d ks).map _
      · exact agrees_lift_bind spares_advance fun _ => agrees_breakStatement t
      · exact agrees_lift (spares_advance.bind fun _ => spares_returnStatement n t)
      · exact agrees_lift_bind spares_advance fun _ =>
          ((ih.block d (.block :: ks) []).within (k := .block)).map _
      · exact agrees_lift (spares_advance.bind fun _ => spares_printStatement n)
      · try split
        all_goals first | contradiction | exact agrees_lift (spares_expressionStatement n)
    · intro d ks found
      rw [Counted.block, Grammar.block]
      refine agrees_lift_bind spares_atEnd fun _ => agrees_lift_bind (spares_sees _) fun _ => ?_
      split
      · exact agrees_lift_bind (spares_expect _ (by simp)) fun _ => agrees_pure _
      · exact (ih.declaration d ks).bind fun _ => ih.block d ks _
    · intro d ks sort
      rw [Counted.function, Grammar.function]
      exact agrees_lift_bind (spares_expect _ (by simp)) fun _ =>
        agrees_lift_bind (spares_parameters n _) fun _ =>
        agrees_lift_bind (spares_expect _ (by simp)) fun _ =>
        ((ih.block 0 (.functionBody :: ks) []).within (k := .functionBody)).bind fun _ =>
        agrees_pure _
    · intro d ks
      rw [Counted.classDeclaration, Grammar.classDeclaration]
      exact agrees_lift_bind (spares_expect _ (by simp)) fun _ =>
        agrees_lift_bind (spares_expect _ (by simp)) fun _ =>
        ((ih.members d (.classBody :: ks) [] []).within (k := .classBody)).bind fun _ =>
        agrees_lift_bind (spares_expect _ (by simp)) fun _ => agrees_pure _
    · intro d ks ms ss
      rw [Counted.members, Grammar.members]
      refine agrees_lift_bind spares_atEnd fun _ => agrees_lift_bind (spares_sees _) fun _ => ?_
      split
      · exact agrees_pure _
      · refine agrees_lift_bind (spares_accept _) fun o => ?_
        cases o with
        | none => exact (ih.function d ks _).bind fun _ => ih.members d ks _ _
        | some t => exact (ih.function d ks _).bind fun _ => ih.members d ks _ _

lemma agrees_declarations (n : ℕ) (found : List Stmt) (ks : List Construct) :
    (Counted.declarations n found).Agrees 0 ks (declarations n found) := by
  induction n generalizing found with
  | zero => exact agrees_lift spares_exhausted
  | succ n ih =>
    rw [Counted.declarations, Grammar.declarations]
    refine agrees_lift_bind spares_atEnd fun _ => ?_
    split
    · exact agrees_pure _
    · exact ((stmtAgrees n).declaration 0 ks).bind fun _ => ih _

/-! ### All rules -/

/-- The rules from which a program is read, up to that for a declaration. -/
inductive Production : Type → Type 1
  | expr (l : Level) : Production Expr
  | varDeclaration : Production Stmt
  | expressionStatement : Production Stmt
  | printStatement : Production Stmt
  | returnStatement (keyword : Token) : Production Stmt
  | breakStatement (keyword : Token) : Production Stmt
  | parameters (sort : FunctionSort) : Production (Option (List Token))
  | forHead : Production ForHead
  | loopBody : Production Stmt
  | declaration : Production (Option Stmt)
  | statement : Production Stmt
  | block (found : List Stmt) : Production (List Stmt)
  | function (sort : FunctionSort) : Production FunctionDecl
  | classDeclaration : Production Stmt
  | members (methods statics : List FunctionDecl) :
      Production (List FunctionDecl × List FunctionDecl)

namespace Production

/-- The rule with `n` steps, told whether a `break` is in order. -/
def rule (n : Nat) (inLoop : Bool) : Production α → Rule α
  | expr l => Grammar.expr n l
  | varDeclaration => Grammar.varDeclaration n
  | expressionStatement => Grammar.expressionStatement n
  | printStatement => Grammar.printStatement n
  | returnStatement keyword => Grammar.returnStatement n keyword
  | breakStatement keyword => Grammar.breakStatement inLoop keyword
  | parameters sort => Grammar.parameters n sort
  | forHead => Grammar.forHead n
  | loopBody => Grammar.statement n true
  | declaration => Grammar.declaration n inLoop
  | statement => Grammar.statement n inLoop
  | block found => Grammar.block n inLoop found
  | function sort => Grammar.function n sort
  | classDeclaration => Grammar.classDeclaration n
  | members methods statics => Grammar.members n methods statics

/-- The rule with `n` steps and an account. -/
def counted (n : Nat) : Production α → Counted α
  | expr l => lift (Grammar.expr n l)
  | varDeclaration => lift (Grammar.varDeclaration n)
  | expressionStatement => lift (Grammar.expressionStatement n)
  | printStatement => lift (Grammar.printStatement n)
  | returnStatement keyword => lift (Grammar.returnStatement n keyword)
  | breakStatement keyword => Counted.breakStatement keyword
  | parameters sort => lift (Grammar.parameters n sort)
  | forHead => lift (Grammar.forHead n)
  | loopBody => within .loopBody (Counted.statement n)
  | declaration => Counted.declaration n
  | statement => Counted.statement n
  | block found => Counted.block n found
  | function sort => Counted.function n sort
  | classDeclaration => Counted.classDeclaration n
  | members methods statics => Counted.members n methods statics

lemma agrees (p : Production α) (n d : ℕ) (ks : List Construct) :
    (p.counted n).Agrees d ks (p.rule n (d ≠ 0)) := by
  have hstmt := stmtAgrees n
  cases p with
  | expr l => exact agrees_lift ((exprSpares n).expr l)
  | varDeclaration => exact agrees_lift (spares_varDeclaration n)
  | expressionStatement => exact agrees_lift (spares_expressionStatement n)
  | printStatement => exact agrees_lift (spares_printStatement n)
  | returnStatement keyword => exact agrees_lift (spares_returnStatement n keyword)
  | breakStatement keyword => exact agrees_breakStatement keyword
  | parameters sort => exact agrees_lift (spares_parameters n sort)
  | forHead => exact agrees_lift (spares_forHead n)
  | loopBody => exact (hstmt.statement (d + 1) (.loopBody :: ks)).within (k := .loopBody)
  | declaration => exact hstmt.declaration d ks
  | statement => exact hstmt.statement d ks
  | block found => exact hstmt.block d ks found
  | function sort => exact hstmt.function d ks sort
  | classDeclaration => exact hstmt.classDeclaration d ks
  | members methods statics => exact hstmt.members d ks methods statics

end Production

/-- The rule sets the account back. -/
def Counted.Restores (r : Counted α) : Prop :=
  ∀ a c, (r a c).1.depth = a.depth ∧ (r a c).1.opened = a.opened

namespace Counted

lemma Agrees.restores {r : Counted α} {r' : ℕ → Rule α} (h : ∀ d ks, r.Agrees d ks (r' d)) :
    r.Restores := by
  rintro ⟨d, ks, breaks⟩ c
  obtain ⟨new, hr, -⟩ := h d ks breaks c
  rw [hr]
  exact ⟨rfl, rfl⟩

lemma Restores.bind {r : Counted α} {f : α → Counted β} (h : r.Restores)
    (hf : ∀ x, (f x).Restores) : (r >>= f).Restores := by
  intro a c
  have hr := h a c
  rw [Counted.bind_apply]
  generalize r a c = res at hr ⊢
  obtain ⟨a', o⟩ := res
  cases o with
  | done x c₁ => exact ⟨(hf x a' c₁).1.trans hr.1, (hf x a' c₁).2.trans hr.2⟩
  | failed e c₁ => exact hr
  | exhausted => exact hr

/-- At the outermost level as well the account is set back, whatever it was. -/
lemma restores_declarations (n : ℕ) (found : List Stmt) :
    (Counted.declarations n found).Restores := by
  induction n generalizing found with
  | zero => exact fun _ _ => ⟨rfl, rfl⟩
  | succ n ih =>
    rw [Counted.declarations]
    refine Restores.bind (fun _ _ => ⟨rfl, rfl⟩) fun ended => ?_
    split
    · exact fun _ _ => ⟨rfl, rfl⟩
    · exact (Agrees.restores (stmtAgrees n).declaration).bind fun _ => ih _

end Counted

/-- All complaints about what was not read. -/
def Parsed.complaints (p : Parsed α) : List Complaint :=
  match p.result with
  | .ok _ => []
  | .error cs => cs

lemma strays_program {tokens : List Token} {firstId : NodeId} {cs : List Complaint}
    (h : cs ∈ (declarations (allowance tokens) [] (.start tokens firstId)).complaints?) :
    strays (program tokens firstId).complaints = (strays cs).reverse := by
  unfold program strays
  rw [← List.filter_reverse]
  cases hr : declarations (allowance tokens) [] (.start tokens firstId) with
  | done body c =>
    rw [hr] at h
    cases h
    unfold Parsed.complaints Cursor.finish
    cases hc : c.complaints <;> simp [hc]
  | failed e c =>
    rw [hr] at h
    cases h
    rfl
  | exhausted => exact absurd hr (declarations_not_exhausted tokens firstId)

/-- **Rules.** From any tokens and with any account, each rule sets the account back to the count
and to the open constructs that it found, however it ends, and reads what it does when it is told
whether the count is above zero. If the count is that of the open loops, the rule complains about
just the breaks that it read where no loop was open inside the innermost function. **Programs.**
The rule for whole programs sets the account back too. What it complains about breaks are those that
were read as statements where no loop was open inside the innermost function, in their order, with
whatever else is wrong. -/
theorem breaks_reported_outside_open_loops :
    (∀ {α : Type} (p : Production α) (n : ℕ) (a : Account) (c : Cursor),
      (p.counted n a c).1.depth = a.depth ∧ (p.counted n a c).1.opened = a.opened ∧
      (p.counted n a c).2 = p.rule n (a.depth ≠ 0) c ∧
      ∃ new, (p.counted n a c).1.breaks = new ++ a.breaks ∧
        (a.depth = loopsAround a.opened →
          ∀ cs ∈ (p.rule n (a.depth ≠ 0) c).complaints?,
            strays cs = strayed new ++ strays c.complaints)) ∧
    (∀ n found a c, (Counted.declarations n found a c).1.depth = a.depth ∧
      (Counted.declarations n found a c).1.opened = a.opened) ∧
    ∀ tokens firstId,
      let r := Counted.declarations (allowance tokens) [] ⟨0, [], []⟩ (.start tokens firstId)
      r.2 = declarations (allowance tokens) [] (.start tokens firstId) ∧
        strays (program tokens firstId).complaints = strayed r.1.breaks.reverse := by
  refine ⟨fun p n a c => ?_, fun n found a c => ?_, fun tokens firstId => ?_⟩
  · obtain ⟨d, ks, breaks⟩ := a
    obtain ⟨new, hr, hnew⟩ := p.agrees n d ks breaks c
    rw [hr]
    exact ⟨rfl, rfl, rfl, new, rfl, hnew⟩
  · exact restores_declarations n found a c
  · obtain ⟨new, hr, hnew⟩ :=
      agrees_declarations (allowance tokens) [] [] [] (.start tokens firstId)
    dsimp only
    rw [hr, List.append_nil]
    refine ⟨rfl, ?_⟩
    obtain ⟨cs, hcs⟩ : ∃ cs,
        (declarations (allowance tokens) [] (.start tokens firstId)).complaints? = some cs := by
      cases hd : declarations (allowance tokens) [] (.start tokens firstId) with
      | done body c => exact ⟨_, rfl⟩
      | failed e c => exact ⟨_, rfl⟩
      | exhausted => exact absurd hd (declarations_not_exhausted tokens firstId)
    rw [strays_program hcs, hnew rfl cs hcs]
    simp [strayed, strays, Cursor.start, List.filter_reverse, List.map_reverse]

end Lox.Grammar
