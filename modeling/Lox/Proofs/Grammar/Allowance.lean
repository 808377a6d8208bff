import Lox.Proofs.Grammar.Growth
import Lox.Proofs.Grammar.Precedence

/-!
The allowance of steps is enough.

With sixteen steps for each token that is left, and a few more, every rule comes to an end: between
two tokens a rule goes through at most every level once. What is read therefore does not depend on
the allowance. The numbers of nodes never go back on the way, whether the rule succeeds or fails.
-/

namespace Lox.Grammar

variable {α β : Type}

/-! ### Coming to an end -/

/-- Not exhausted: at most `len` tokens are left, and `k` fewer after a success, and the next number
is at least `id`. -/
def Outcome.Within (len : ℕ) (id : NodeId) (k : ℕ) : Outcome α → Prop
  | .done _ c => c.rest.length + k ≤ len ∧ id ≤ c.nextId
  | .failed _ c => c.rest.length ≤ len ∧ id ≤ c.nextId
  | .exhausted => False

lemma Outcome.Within.trans {len len' k j : ℕ} {id id' : NodeId} {o : Outcome α}
    (h : o.Within len' id' j) (hlen : len' + k ≤ len) (hid : id ≤ id') :
    o.Within len id (k + j) := by
  cases o with
  | done a c' => exact ⟨by have := h.1; omega, hid.trans h.2⟩
  | failed e c' => exact ⟨by have := h.1; omega, hid.trans h.2⟩
  | exhausted => exact h

lemma Outcome.Within.mono {len k j : ℕ} {id : NodeId} {o : Outcome α} (h : o.Within len id k)
    (hj : j ≤ k) : o.Within len id j := by
  cases o with
  | done a c' => exact ⟨by have := h.1; omega, h.2⟩
  | failed e c' => exact h
  | exhausted => exact h

namespace Rule

/-- The rule does not run out at a cursor, and passes at least `k` tokens if it succeeds. -/
def EndsAt (r : Rule α) (c : Cursor) (k : ℕ) : Prop := (r c).Within c.rest.length c.nextId k

variable {c : Cursor} {k j : ℕ} {r : Rule α} {f : α → Rule β}

lemma EndsAt.mono (h : r.EndsAt c k) (hj : j ≤ k) : r.EndsAt c j := Outcome.Within.mono h hj

lemma endsAt_pure (a : α) : (pure a : Rule α).EndsAt c 0 :=
  ⟨le_refl c.rest.length, le_rfl⟩

lemma endsAt_fail (e : Fault) : (fail e : Rule α).EndsAt c k :=
  ⟨le_refl c.rest.length, le_rfl⟩

lemma endsAt_expect (p : Kind → Bool) (e : Fault) : (expect p e).EndsAt c 1 := by
  unfold EndsAt expect
  split
  · exact ⟨le_refl c.rest.length, le_rfl⟩
  · rename_i t rest h
    split <;> simp [Outcome.Within, h]

lemma endsAt_bind (h : r.EndsAt c k)
    (hf : ∀ a c', c'.rest.length + k ≤ c.rest.length → (f a).EndsAt c' 0) :
    (r >>= f).EndsAt c k := by
  unfold EndsAt at h ⊢
  rw [bind_apply]
  cases hr : r c with
  | done a c' =>
    rw [hr] at h
    exact (hf a c' h.1).trans h.1 h.2
  | failed e c' => rwa [hr] at h
  | exhausted => rwa [hr] at h

lemma endsAt_bind_zero (h : r.EndsAt c k)
    (hf : ∀ a c', c'.rest.length + k ≤ c.rest.length → (f a).EndsAt c' 0) :
    (r >>= f).EndsAt c 0 :=
  (endsAt_bind h hf).mono (Nat.zero_le k)

/-- A step that leaves the tokens alone. -/
lemma endsAt_still_bind {c' : Cursor} {a : α} (hr : r c = .done a c') (hc : c'.rest = c.rest)
    (hid : c.nextId ≤ c'.nextId) (h : (f a).EndsAt c' k) : (r >>= f).EndsAt c k := by
  unfold EndsAt
  rw [bind_apply, hr, ← hc]
  exact (Outcome.Within.trans h (Nat.le_refl _) hid).mono (Nat.le_add_left k 0)

lemma endsAt_freshId_bind {f : NodeId → Rule β}
    (h : (f c.nextId).EndsAt { c with nextId := c.nextId + 1 } k) : (freshId >>= f).EndsAt c k :=
  endsAt_still_bind rfl rfl (Nat.le_succ _) h

lemma endsAt_sees_bind {p : Kind → Bool} {f : Bool → Rule β} (h : ∀ b, (f b).EndsAt c k) :
    (sees p >>= f).EndsAt c k :=
  endsAt_still_bind rfl rfl le_rfl (h _)

lemma endsAt_accept_bind {p : Kind → Bool} {f : Option Token → Rule β}
    (hnone : (f none).EndsAt c k)
    (hsome : ∀ t c', c'.rest.length + 1 ≤ c.rest.length → (f (some t)).EndsAt c' k) :
    (accept p >>= f).EndsAt c k := by
  cases hc : c.rest with
  | nil => exact endsAt_still_bind (by simp [accept, hc]) rfl le_rfl hnone
  | cons t rest =>
    by_cases hp : p t.kind
    · have hlen : rest.length + 1 ≤ c.rest.length := by simp [hc]
      have hacc : accept p c = .done (some t) { c with rest } := by simp [accept, hc, hp]
      unfold EndsAt
      rw [bind_apply, hacc]
      exact (Outcome.Within.trans (hsome t { c with rest } hlen) hlen le_rfl).mono
        (Nat.le_add_left k 1)
    · exact endsAt_still_bind (by simp [accept, hc, hp]) rfl le_rfl hnone

lemma endsAt_require_bind {b : Bool} {t : Token} {e : Fault} {f : PUnit → Rule β}
    (h : ∀ c', c'.rest = c.rest → (f ⟨⟩).EndsAt c' k) : (require b t e >>= f).EndsAt c k := by
  cases b with
  | true => exact endsAt_still_bind rfl rfl le_rfl (h _ rfl)
  | false => exact endsAt_still_bind rfl rfl le_rfl (h _ rfl)

lemma endsAt_unlessSees_bind {s : Symbol} {a : α}
    (hr : r.EndsAt c 0) (hf : ∀ a c', c'.rest.length ≤ c.rest.length → (f a).EndsAt c' 0) :
    (unlessSees s a r >>= f).EndsAt c 0 := by
  refine endsAt_bind (endsAt_sees_bind fun b => ?_) hf
  cases b with
  | true => exact endsAt_pure a
  | false => exact hr

lemma endsAt_map {g : α → β} (h : r.EndsAt c k) : (g <$> r).EndsAt c k :=
  endsAt_bind h fun _ _ _ => endsAt_pure _

/-- Passing the token in front. -/
lemma endsAt_advance_bind {t : Token} {rest : List Token} {f : PUnit → Rule β}
    (hc : c.rest = t :: rest) (h : (f ⟨⟩).EndsAt { c with rest } k) :
    (advance >>= f).EndsAt c (1 + k) := by
  have hadv : advance c = .done ⟨⟩ { c with rest } := by simp [advance, hc]
  unfold EndsAt
  rw [bind_apply, hadv]
  exact Outcome.Within.trans h (by simp [hc]) le_rfl

end Rule

open Rule

/-! ### Expressions -/

/-- Every rule for expressions comes to an end within `n` steps if there are sixteen for each
token, and a few more. -/
structure ExprEnds (n : ℕ) : Prop where
  expr : ∀ l c, 16 * c.rest.length + l.height + 2 ≤ n → (expr n l).EndsAt c 1
  chain : ∀ l e c, 16 * c.rest.length + 14 ≤ n → (chain n l e).EndsAt c 0
  suffixes : ∀ e c, 16 * c.rest.length + 14 ≤ n → (suffixes n e).EndsAt c 0
  argumentList : ∀ found c, 16 * c.rest.length + 14 ≤ n → (argumentList n found).EndsAt c 1
  primary : ∀ c, 16 * c.rest.length + 1 ≤ n → (primary n).EndsAt c 1

lemma endsAt_assignTo (target : Expr) (equals : Token) (value : Expr) (c : Cursor) :
    (assignTo target equals value).EndsAt c 0 := by
  unfold assignTo
  split
  · exact endsAt_freshId_bind (endsAt_pure _)
  · exact endsAt_pure _
  · exact endsAt_still_bind rfl rfl le_rfl (endsAt_pure _)

lemma exprEnds (n : ℕ) : ExprEnds n := by
  induction n with
  | zero => constructor <;> intros <;> have := Level.height_le <;> grind
  | succ n ih =>
    have chained : ∀ (l : Level) c, 16 * c.rest.length + l.tighter.height + 2 ≤ n →
        (Grammar.expr n l.tighter >>= Grammar.chain n l).EndsAt c 1 := fun l c hn =>
      endsAt_bind (ih.expr _ _ hn) fun e c' hc =>
        ih.chain _ _ _ (by have := l.tighter.height_le; omega)
    constructor
    · intro l c hn
      cases l with
      | assignment =>
        simp only [Level.height] at hn
        rw [Grammar.expr]
        refine endsAt_bind (ih.expr _ _ (by simp only [Level.height]; omega))
          fun target c₁ h₁ => ?_
        refine endsAt_accept_bind (endsAt_pure _) fun equals c₂ h₂ => ?_
        refine endsAt_bind_zero (ih.expr _ _ (by simp only [Level.height]; omega))
          fun value c₃ h₃ => ?_
        exact endsAt_assignTo _ _ _ _
      | conditional =>
        simp only [Level.height] at hn
        rw [Grammar.expr]
        refine endsAt_bind (ih.expr _ _ (by simp only [Level.height]; omega))
          fun condition c₁ h₁ => ?_
        refine endsAt_accept_bind (endsAt_pure _) fun mark c₂ h₂ => ?_
        refine endsAt_bind_zero (ih.expr _ _ (by simp only [Level.height]; omega))
          fun whenTrue c₃ h₃ => ?_
        refine endsAt_bind_zero (endsAt_expect _ _) fun colon c₄ h₄ => ?_
        exact endsAt_bind_zero (ih.expr _ _ (by simp only [Level.height]; omega))
          fun whenFalse c₅ h₅ => endsAt_pure _
      | unary =>
        simp only [Level.height] at hn
        rw [Grammar.expr]
        refine endsAt_accept_bind (ih.expr _ _ (by simp only [Level.height]; omega))
          fun op c₁ h₁ => ?_
        exact endsAt_bind (ih.expr _ _ (by simp only [Level.height]; omega))
          fun operand c₂ h₂ => endsAt_pure _
      | call =>
        simp only [Level.height] at hn
        exact endsAt_bind (ih.expr _ _ (by simp only [Level.height]; omega))
          fun e c' hc => ih.suffixes _ _ (by omega)
      | primary => exact ih.primary _ (by simp only [Level.height] at hn; omega)
      | _ => exact chained _ _ (by simp only [Level.height, Level.tighter] at hn ⊢; omega)
    · intro l e c hn
      rw [Grammar.chain]
      refine endsAt_accept_bind (endsAt_pure _) fun op c₁ h₁ => ?_
      have hw := l.tighter.height_le
      refine endsAt_bind_zero (ih.expr _ _ (by omega)) fun right c₂ h₂ => ?_
      exact ih.chain _ _ _ (by omega)
    · intro e c hn
      rw [Grammar.suffixes]
      refine endsAt_still_bind (a := c.front) rfl rfl le_rfl ?_
      cases hc : c.rest with
      | nil =>
        simp only [Cursor.front, hc, List.headD_nil, c.stop_kind]
        exact endsAt_pure _
      | cons t rest =>
        have hlen : rest.length + 1 = c.rest.length := by simp [hc]
        split
        · refine (endsAt_advance_bind hc (k := 0) ?_).mono (Nat.zero_le _)
          refine endsAt_unlessSees_bind ?_ fun args c₁ h₁ => ?_
          · exact (ih.argumentList _ _ (by simp only; omega)).mono (Nat.zero_le _)
          · simp only at h₁
            refine endsAt_bind_zero (endsAt_expect _ _) fun paren c₂ h₂ => ?_
            exact ih.suffixes _ _ (by omega)
        · refine (endsAt_advance_bind hc (k := 0) ?_).mono (Nat.zero_le _)
          refine endsAt_bind_zero (endsAt_expect _ _) fun paren c₁ h₁ => ?_
          simp only at h₁
          exact ih.suffixes _ _ (by omega)
        · exact endsAt_pure _
    · intro found c hn
      rw [Grammar.argumentList]
      refine endsAt_still_bind (a := c.front) rfl rfl le_rfl (endsAt_require_bind fun c₀ h₀ => ?_)
      refine endsAt_bind (ih.expr _ _ (by simp only [Level.height, h₀]; omega))
        fun argument c₁ h₁ => ?_
      rw [h₀] at h₁
      refine endsAt_accept_bind (endsAt_pure _) fun comma c₂ h₂ => ?_
      exact (ih.argumentList _ _ (by omega)).mono (Nat.zero_le _)
    · intro c hn
      rw [Grammar.primary]
      refine endsAt_still_bind (a := c.front) rfl rfl le_rfl ?_
      cases hc : c.rest with
      | nil =>
        simp only [Cursor.front, hc, List.headD_nil, c.stop_kind]
        exact endsAt_fail _
      | cons t rest =>
        have hlen : rest.length + 1 = c.rest.length := by simp [hc]
        split
        · exact endsAt_advance_bind hc (endsAt_pure _)
        · exact endsAt_advance_bind hc (endsAt_pure _)
        · exact endsAt_advance_bind hc (endsAt_pure _)
        · refine endsAt_advance_bind hc (k := 0) (endsAt_freshId_bind ?_)
          exact endsAt_pure _
        · exact endsAt_advance_bind hc (endsAt_pure _)
        · exact endsAt_advance_bind hc (endsAt_pure _)
        · refine endsAt_advance_bind hc (k := 0) (endsAt_freshId_bind ?_)
          exact endsAt_pure _
        · refine endsAt_advance_bind hc (k := 0) ?_
          refine endsAt_bind_zero (ih.expr _ _ (by simp only [Level.height]; omega))
            fun inner c₁ h₁ => ?_
          exact endsAt_bind_zero (endsAt_expect _ _) fun paren c₂ h₂ => endsAt_pure _
        · split
          · rename_i level _
            have hw := level.height_le
            refine endsAt_advance_bind hc (k := 0) (endsAt_still_bind rfl rfl le_rfl ?_)
            exact (ih.expr _ _ (by simp only; omega)).mono (Nat.zero_le _)
          · exact endsAt_fail _

/-! ### Statements -/

section
variable {n : ℕ} {c : Cursor}

lemma endsAt_expression (h : 16 * c.rest.length + 13 ≤ n) : (expression n).EndsAt c 1 :=
  (exprEnds n).expr .comma c h

lemma endsAt_some_expression (h : 16 * c.rest.length + 13 ≤ n) :
    (some <$> expression n).EndsAt c 0 :=
  (endsAt_map (endsAt_expression h)).mono (Nat.zero_le 1)

lemma endsAt_varDeclaration (h : 16 * c.rest.length + 13 ≤ n) :
    (varDeclaration n).EndsAt c 1 := by
  refine endsAt_bind (endsAt_expect _ _) fun name c₁ h₁ => ?_
  refine endsAt_bind ?_ fun initial c₂ h₂ => ?_
  · refine endsAt_accept_bind (endsAt_pure _) fun equals c₂ h₂ => ?_
    exact endsAt_some_expression (by omega)
  · exact endsAt_bind_zero (endsAt_expect _ _) fun _ _ _ => endsAt_pure _

lemma endsAt_expressionStatement (h : 16 * c.rest.length + 13 ≤ n) :
    (expressionStatement n).EndsAt c 1 :=
  endsAt_bind (endsAt_expression h) fun _ _ _ =>
    endsAt_bind_zero (endsAt_expect _ _) fun _ _ _ => endsAt_pure _

lemma endsAt_printStatement (h : 16 * c.rest.length + 13 ≤ n) :
    (printStatement n).EndsAt c 1 :=
  endsAt_bind (endsAt_expression h) fun _ _ _ =>
    endsAt_bind_zero (endsAt_expect _ _) fun _ _ _ => endsAt_pure _

lemma endsAt_breakStatement (inLoop : Bool) (keyword : Token) :
    (breakStatement inLoop keyword).EndsAt c 0 :=
  endsAt_require_bind fun _ _ =>
    endsAt_bind_zero (endsAt_expect _ _) fun _ _ _ => endsAt_pure _

lemma endsAt_returnStatement (keyword : Token) (h : 16 * c.rest.length + 13 ≤ n) :
    (returnStatement n keyword).EndsAt c 0 :=
  endsAt_unlessSees_bind (endsAt_some_expression h) fun _ _ _ =>
    endsAt_bind_zero (endsAt_expect _ _) fun _ _ _ => endsAt_pure _

lemma endsAt_parameterList (found : List Token) (h : 16 * c.rest.length + 1 ≤ n) :
    (parameterList n found).EndsAt c 1 := by
  induction n generalizing found c with
  | zero => omega
  | succ n ih =>
    rw [parameterList]
    refine endsAt_still_bind (a := c.front) rfl rfl le_rfl (endsAt_require_bind fun c₀ h₀ => ?_)
    refine endsAt_bind (endsAt_expect _ _) fun name c₁ h₁ => ?_
    rw [h₀] at h₁
    refine endsAt_accept_bind (endsAt_pure _) fun comma c₂ h₂ => ?_
    exact (ih _ (by omega)).mono (Nat.zero_le 1)

lemma endsAt_parameters (sort : FunctionSort) (h : 16 * c.rest.length + 1 ≤ n) :
    (parameters n sort).EndsAt c 0 := by
  refine endsAt_sees_bind fun b => ?_
  split
  · exact endsAt_pure _
  · refine endsAt_bind_zero (endsAt_expect _ _) fun paren c₁ h₁ => ?_
    refine endsAt_unlessSees_bind ?_ fun names c₂ h₂ => ?_
    · exact (endsAt_parameterList _ (by omega)).mono (Nat.zero_le 1)
    · exact endsAt_bind_zero (endsAt_expect _ _) fun _ _ _ => endsAt_pure _

lemma endsAt_forFirst (h : 16 * c.rest.length + 13 ≤ n) : (forFirst n).EndsAt c 0 := by
  refine endsAt_accept_bind ?_ fun _ _ _ => endsAt_pure _
  refine endsAt_accept_bind ?_ fun _ _ _ => ?_
  · exact (endsAt_map (endsAt_expressionStatement h)).mono (Nat.zero_le 1)
  · exact (endsAt_map (endsAt_varDeclaration (by omega))).mono (Nat.zero_le 1)

lemma endsAt_forHead (h : 16 * c.rest.length + 13 ≤ n) : (forHead n).EndsAt c 1 := by
  refine endsAt_bind (endsAt_expect _ _) fun paren c₁ h₁ => ?_
  refine endsAt_bind (endsAt_forFirst (by omega)) fun first c₂ h₂ => ?_
  refine endsAt_unlessSees_bind (endsAt_some_expression (by omega)) fun condition c₃ h₃ => ?_
  refine endsAt_bind_zero (endsAt_expect _ _) fun semicolon c₄ h₄ => ?_
  refine endsAt_unlessSees_bind (endsAt_some_expression (by omega)) fun increment c₅ h₅ => ?_
  exact endsAt_bind_zero (endsAt_expect _ _) fun _ _ _ => endsAt_pure _

end

lemma resumeAfter_length_le (last : Token) (tokens : List Token) :
    (resumeAfter last tokens).length ≤ tokens.length := by
  induction tokens generalizing last with
  | nil => exact le_rfl
  | cons t rest ih =>
    rw [resumeAfter]
    split
    · exact le_rfl
    · exact (ih t).trans (Nat.le_succ _)

/-- A failure passes a token, so that giving up a declaration makes progress too. -/
lemma endsAt_recovering {r : Rule α} {c : Cursor} (h : r.EndsAt c 1) (hc : c.rest ≠ []) :
    (recovering r).EndsAt c 1 := by
  unfold EndsAt recovering at *
  cases hr : r c with
  | done a c' => rwa [hr] at h
  | failed e c' =>
    rw [hr] at h
    obtain ⟨h, hid⟩ := h
    refine ⟨?_, hid⟩
    change (resume c'.rest).length + 1 ≤ c.rest.length
    cases hc' : c'.rest with
    | nil =>
      simpa [resume, Nat.one_le_iff_ne_zero] using hc
    | cons t rest =>
      have hle := resumeAfter_length_le t rest
      rw [hc', List.length_cons] at h
      rw [resume]
      omega
  | exhausted => rwa [hr] at h

/-- Every rule for declarations and statements comes to an end within `n` steps if there are
sixteen for each token, and a few more. -/
structure StmtEnds (n : ℕ) : Prop where
  declaration : ∀ b c, 16 * c.rest.length + 15 ≤ n → c.rest ≠ [] → (declaration n b).EndsAt c 1
  statement : ∀ b c, 16 * c.rest.length + 14 ≤ n → (statement n b).EndsAt c 1
  block : ∀ b found c, 16 * c.rest.length + 16 ≤ n → (block n b found).EndsAt c 0
  function : ∀ sort c, 16 * c.rest.length + 1 ≤ n → (function n sort).EndsAt c 1
  classDeclaration : ∀ c, 16 * c.rest.length + 1 ≤ n → (classDeclaration n).EndsAt c 1
  members : ∀ ms ss c, 16 * c.rest.length + 2 ≤ n → (members n ms ss).EndsAt c 0

lemma stmtEnds (n : ℕ) : StmtEnds n := by
  induction n with
  | zero => constructor <;> intros <;> omega
  | succ n ih =>
    constructor
    · intro b c hn hc
      rw [Grammar.declaration]
      refine endsAt_recovering (endsAt_still_bind (a := c.front) rfl rfl le_rfl ?_) hc
      obtain ⟨t, rest, hc⟩ := List.exists_cons_of_ne_nil hc
      have hlen : rest.length + 1 = c.rest.length := by simp [hc]
      split
      · refine endsAt_advance_bind hc (k := 0) ?_
        exact (ih.classDeclaration _ (by simp only; omega)).mono (Nat.zero_le 1)
      · refine endsAt_advance_bind hc (k := 0) ?_
        exact (endsAt_map (ih.function _ _ (by simp only; omega))).mono (Nat.zero_le 1)
      · refine endsAt_advance_bind hc (k := 0) ?_
        exact (endsAt_varDeclaration (by simp only; omega)).mono (Nat.zero_le 1)
      · exact ih.statement _ _ (by omega)
    · intro b c hn
      rw [Grammar.statement]
      refine endsAt_still_bind (a := c.front) rfl rfl le_rfl ?_
      cases hc : c.rest with
      | nil =>
        simp only [Cursor.front, hc, List.headD_nil, c.stop_kind]
        exact endsAt_expressionStatement (by omega)
      | cons t rest =>
        have hlen : rest.length + 1 = c.rest.length := by simp [hc]
        split
        · refine endsAt_advance_bind hc (k := 0) ?_
          refine endsAt_bind_zero (endsAt_forHead (by simp only; omega)) fun head c₁ h₁ => ?_
          simp only at h₁
          exact (endsAt_map (ih.statement _ _ (by omega))).mono (Nat.zero_le 1)
        · refine endsAt_advance_bind hc (k := 0) ?_
          refine endsAt_bind_zero (endsAt_expect _ _) fun paren c₁ h₁ => ?_
          simp only at h₁
          refine endsAt_bind_zero (endsAt_expression (by omega)) fun condition c₂ h₂ => ?_
          refine endsAt_bind_zero (endsAt_expect _ _) fun paren c₃ h₃ => ?_
          refine endsAt_bind_zero (ih.statement _ _ (by omega)) fun whenTrue c₄ h₄ => ?_
          refine endsAt_accept_bind (endsAt_pure _) fun word c₅ h₅ => ?_
          exact (endsAt_map (ih.statement _ _ (by omega))).mono (Nat.zero_le 1)
        · refine endsAt_advance_bind hc (k := 0) ?_
          refine endsAt_bind_zero (endsAt_expect _ _) fun paren c₁ h₁ => ?_
          simp only at h₁
          refine endsAt_bind_zero (endsAt_expression (by omega)) fun condition c₂ h₂ => ?_
          refine endsAt_bind_zero (endsAt_expect _ _) fun paren c₃ h₃ => ?_
          exact (endsAt_map (ih.statement _ _ (by omega))).mono (Nat.zero_le 1)
        · exact endsAt_advance_bind hc (k := 0) (endsAt_breakStatement _ _)
        · refine endsAt_advance_bind hc (k := 0) ?_
          exact endsAt_returnStatement _ (by simp only; omega)
        · refine endsAt_advance_bind hc (k := 0) ?_
          exact endsAt_map (ih.block _ _ _ (by simp only; omega))
        · refine endsAt_advance_bind hc (k := 0) ?_
          exact (endsAt_printStatement (by simp only; omega)).mono (Nat.zero_le 1)
        · exact endsAt_expressionStatement (by omega)
    · intro b found c hn
      rw [Grammar.block]
      refine endsAt_still_bind (a := c.rest.isEmpty) rfl rfl le_rfl ?_
      refine endsAt_sees_bind fun closing => ?_
      split
      · exact endsAt_bind_zero (endsAt_expect _ _) fun _ _ _ => endsAt_pure _
      · rename_i hb
        have hne : c.rest ≠ [] := by
          rintro he
          simp [he] at hb
        refine endsAt_bind_zero (ih.declaration _ _ (by omega) hne) fun s c₁ h₁ => ?_
        exact ih.block _ _ _ (by omega)
    · intro sort c hn
      rw [Grammar.function]
      refine endsAt_bind (endsAt_expect _ _) fun name c₁ h₁ => ?_
      refine endsAt_bind (endsAt_parameters _ (by omega)) fun params c₂ h₂ => ?_
      refine endsAt_bind_zero (endsAt_expect _ _) fun brace c₃ h₃ => ?_
      exact endsAt_bind (ih.block _ _ _ (by omega)) fun _ _ _ => endsAt_pure _
    · intro c hn
      rw [Grammar.classDeclaration]
      refine endsAt_bind (endsAt_expect _ _) fun name c₁ h₁ => ?_
      refine endsAt_bind_zero (endsAt_expect _ _) fun brace c₂ h₂ => ?_
      refine endsAt_bind (ih.members _ _ _ (by omega)) fun ms c₃ h₃ => ?_
      exact endsAt_bind_zero (endsAt_expect _ _) fun _ _ _ => endsAt_pure _
    · intro ms ss c hn
      rw [Grammar.members]
      refine endsAt_still_bind (a := c.rest.isEmpty) rfl rfl le_rfl ?_
      refine endsAt_sees_bind fun closing => ?_
      split
      · exact endsAt_pure _
      · refine endsAt_accept_bind ?_ fun word c₁ h₁ => ?_
        · refine endsAt_bind_zero (ih.function _ _ (by omega)) fun m c₁ h₁ => ?_
          exact ih.members _ _ _ (by omega)
        · refine endsAt_bind_zero (ih.function _ _ (by omega)) fun m c₂ h₂ => ?_
          exact ih.members _ _ _ (by omega)

lemma endsAt_declarations {n : ℕ} (found : List Stmt) {c : Cursor}
    (h : 16 * c.rest.length + 16 ≤ n) : (declarations n found).EndsAt c 0 := by
  induction n generalizing found c with
  | zero => omega
  | succ n ih =>
    rw [declarations]
    refine endsAt_still_bind (a := c.rest.isEmpty) rfl rfl le_rfl ?_
    split
    · exact endsAt_pure _
    · rename_i hb
      have hne : c.rest ≠ [] := by
        rintro he
        simp [he] at hb
      refine endsAt_bind_zero ((stmtEnds n).declaration _ _ (by omega) hne) fun s c₁ h₁ => ?_
      exact ih _ (by omega)

/-! ### The allowance -/

lemma Rule.EndsAt.ne_exhausted {r : Rule α} {c : Cursor} {k : ℕ} (h : r.EndsAt c k) :
    r c ≠ .exhausted := by
  intro he
  unfold EndsAt at h
  rwa [he] at h

lemma Cursor.start_length_le (tokens : List Token) (firstId : NodeId) :
    (Cursor.start tokens firstId).rest.length ≤ tokens.length :=
  (List.takeWhile_sublist _).length_le

variable (tokens : List Token) (firstId : NodeId)

lemma expression_endsAt : (expression (allowance tokens)).EndsAt (.start tokens firstId) 1 := by
  have := Cursor.start_length_le tokens firstId
  refine endsAt_expression ?_
  unfold allowance
  omega

lemma declarations_endsAt :
    (declarations (allowance tokens) []).EndsAt (.start tokens firstId) 0 := by
  have := Cursor.start_length_le tokens firstId
  refine endsAt_declarations [] ?_
  unfold allowance
  omega

theorem expression_not_exhausted :
    expression (allowance tokens) (.start tokens firstId) ≠ .exhausted :=
  (expression_endsAt tokens firstId).ne_exhausted

theorem declarations_not_exhausted :
    declarations (allowance tokens) [] (.start tokens firstId) ≠ .exhausted :=
  (declarations_endsAt tokens firstId).ne_exhausted

/-- Any allowance that is enough to read an expression reads what the chosen one does. -/
theorem expression_of_enough {n : ℕ}
    (h : expression n (.start tokens firstId) ≠ .exhausted) :
    expression (allowance tokens) (.start tokens firstId) =
      expression n (.start tokens firstId) := by
  rcases le_total n (allowance tokens) with hn | hn
  · exact eq_of_le (expr_mono .comma hn) h
  · exact (eq_of_le (expr_mono .comma hn) (expression_not_exhausted tokens firstId)).symm

/-- Any allowance that is enough to read a program reads what the chosen one does. -/
theorem declarations_of_enough {n : ℕ}
    (h : declarations n [] (.start tokens firstId) ≠ .exhausted) :
    declarations (allowance tokens) [] (.start tokens firstId) =
      declarations n [] (.start tokens firstId) := by
  rcases le_total n (allowance tokens) with hn | hn
  · exact eq_of_le (declarations_mono [] hn) h
  · exact (eq_of_le (declarations_mono [] hn) (declarations_not_exhausted tokens firstId)).symm

/-! ### Numbers never go back -/

theorem nextId_program_le : firstId ≤ (program tokens firstId).nextId := by
  have h := declarations_endsAt tokens firstId
  unfold EndsAt at h
  unfold program
  cases hr : declarations (allowance tokens) [] (.start tokens firstId) with
  | done body c => rw [hr] at h; exact h.2
  | failed e c => rw [hr] at h; exact h.2
  | exhausted => exact le_rfl

theorem nextId_singleExpression_le : firstId ≤ (singleExpression tokens firstId).nextId := by
  have h := expression_endsAt tokens firstId
  unfold EndsAt at h
  unfold singleExpression
  cases hr : expression (allowance tokens) (.start tokens firstId) with
  | done e c =>
    rw [hr] at h
    dsimp only
    split <;> exact h.2
  | failed e c => rw [hr] at h; exact h.2
  | exhausted => exact le_rfl

/-- A line is read as a single expression, or else as a program with numbers from some later one
on. -/
theorem line_cases : (line tokens firstId =
      ⟨(singleExpression tokens firstId).result.map .expression,
        (singleExpression tokens firstId).nextId⟩) ∨
    ∃ id, firstId ≤ id ∧ line tokens firstId =
      ⟨(program tokens id).result.map .statements, (program tokens id).nextId⟩ := by
  have h := expression_endsAt tokens firstId
  unfold EndsAt at h
  unfold line singleExpression
  cases hr : expression (allowance tokens) (.start tokens firstId) with
  | done e c =>
    rw [hr] at h
    dsimp only
    split
    · refine .inl ?_
      unfold Cursor.finish
      split <;> rfl
    · exact .inr ⟨c.nextId, h.2, rfl⟩
  | failed e c => rw [hr] at h; exact .inr ⟨c.nextId, h.2, rfl⟩
  | exhausted => exact .inr ⟨firstId, le_rfl, rfl⟩

/-! ### Complaints of what is not read -/

section
variable {α : Type}

lemma Cursor.finish_ne {c : Cursor} {a : α} : (c.finish a).result ≠ .error [] := by
  unfold finish
  cases h : c.complaints <;> simp

lemma Cursor.stopped_ne {c : Cursor} {e : Complaint} :
    (c.stopped e : Parsed α).result ≠ .error [] := by
  simp [stopped]

end

/-- A program is not refused without complaints. -/
lemma program_result_ne : (program tokens firstId).result ≠ .error [] := by
  unfold program
  cases hr : declarations (allowance tokens) [] (.start tokens firstId) with
  | done body c => exact Cursor.finish_ne
  | failed e c => exact Cursor.stopped_ne
  | exhausted => exact absurd hr (declarations_not_exhausted tokens firstId)

lemma singleExpression_result_ne : (singleExpression tokens firstId).result ≠ .error [] := by
  unfold singleExpression
  cases hr : expression (allowance tokens) (.start tokens firstId) with
  | done e c =>
    dsimp only
    split
    · exact Cursor.finish_ne
    · exact Cursor.stopped_ne
  | failed e c => exact Cursor.stopped_ne
  | exhausted => exact absurd hr (expression_not_exhausted tokens firstId)

end Lox.Grammar
