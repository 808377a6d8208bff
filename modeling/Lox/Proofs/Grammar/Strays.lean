import Mathlib.Data.List.TakeWhile
import Lox.Proofs.Grammar.SingleExpression

/-!
Operators that stand where an operand should.

Such an operator is reported and passed, and reading goes on at its own level. The looser levels
then go on with what that level has left, and that is what they would have done without the
operator. So operators in front of an expression give one complaint each, and what follows is read
as if they were not there.
-/

namespace Lox.Grammar

open Rule Filter

variable {α β : Type}

/-! ### What stands after an expression -/

/-- Where the rule succeeds from the cursor, the tokens left have a property. -/
def Rule.LeavesAt (r : Rule α) (c : Cursor) (P : List Token → Prop) : Prop :=
  ∀ a c', r c = .done a c' → P c'.rest

namespace Rule

variable {r : Rule α} {c : Cursor} {P : List Token → Prop}

lemma leavesAt_pure {a : α} (h : P c.rest) : (pure a : Rule α).LeavesAt c P := by
  rintro _ _ ⟨⟩
  exact h

lemma leavesAt_bind {f : α → Rule β} (h : ∀ a c₁, r c = .done a c₁ → (f a).LeavesAt c₁ P) :
    (r >>= f).LeavesAt c P := by
  intro b c' hb
  obtain ⟨a, c₁, ha, hb⟩ := bind_eq_done.mp hb
  exact h a c₁ ha b c' hb

/-- A token that is not accepted stays at the front. -/
lemma leavesAt_accept_bind {p : Kind → Bool} {f : Option Token → Rule β}
    (hnone : (∀ t ∈ c.rest.head?, p t.kind = false) → (f none).LeavesAt c P)
    (hsome : ∀ t c₁, (f (some t)).LeavesAt c₁ P) : (accept p >>= f).LeavesAt c P := by
  refine leavesAt_bind fun o c₁ h => ?_
  unfold accept at h
  split at h
  · cases h
    exact hnone (by simp_all)
  · split at h
    · cases h
      exact hsome _ _
    · cases h
      exact hnone (by simp_all)

end Rule

/-- A level stops where the next tighter one does and no token goes on with it. -/
lemma Stops.loosen {l : Level} {rest : List Token} (h : Stops l.tighter rest)
    (hnot : ∀ t ∈ rest.head?, continues? t.kind ≠ some l) : Stops l rest := by
  intro t ht l' hl'
  have hlt := h t ht l' hl'
  have hne : l'.height ≠ l.height := by
    intro heq
    exact hnot t ht (Level.eq_of_height_eq heq ▸ hl')
  rw [Level.height_tighter] at hlt
  omega

lemma Stops.mono {l l' : Level} {rest : List Token} (h : Stops l rest)
    (hl : l'.height ≤ l.height) : Stops l' rest :=
  fun t ht l₁ hl₁ => hl.trans_lt (h t ht l₁ hl₁)

lemma stops_primary (rest : List Token) : Stops .primary rest := by
  intro t _ l' hl'
  unfold continues? at hl'
  split at hl' <;> first | (obtain rfl := Option.some.inj hl'; decide) | exact nomatch hl'

lemma leavesAt_assignTo {target value : Expr} {equals : Token} {c : Cursor}
    {P : List Token → Prop} (h : P c.rest) : (assignTo target equals value).LeavesAt c P := by
  unfold assignTo
  split <;> rintro _ _ ⟨⟩ <;> exact h

/-- The rules for expressions, with `n` steps, stop where their level stops. -/
structure ExprLeaves (n : ℕ) : Prop where
  expr : ∀ l c, (expr n l).LeavesAt c (Stops l)
  chain : ∀ l e c, l.readsOn → l ≠ .call → Stops l.tighter c.rest →
    (chain n l e).LeavesAt c (Stops l)
  suffixes : ∀ e c, (suffixes n e).LeavesAt c (Stops .call)

lemma chains_of_continues? {l : Level} {k : Kind} (h : continues? k = some l) (hl : l.readsOn)
    (hne : l ≠ .call) : l.chains k := by
  unfold continues? at h
  split at h <;> cases h <;> first | rfl | exact absurd hl (by decide) | exact absurd rfl hne

lemma continues?_ne {p : Kind → Bool} {l : Level} {rest : List Token}
    (hp : ∀ t ∈ rest.head?, p t.kind = false) (hl : ∀ k, continues? k = some l → p k) :
    ∀ t ∈ rest.head?, continues? t.kind ≠ some l :=
  fun t ht hk => Bool.false_ne_true ((hp t ht).symm.trans (hl _ hk))

lemma isSymbol_equal_of_continues? {k : Kind} (h : continues? k = some .assignment) :
    k.isSymbol .equal := by
  unfold continues? at h
  split at h <;> first | rfl | exact nomatch h

lemma isSymbol_question_of_continues? {k : Kind} (h : continues? k = some .conditional) :
    k.isSymbol .question := by
  unfold continues? at h
  split at h <;> first | rfl | exact nomatch h

lemma continues?_call {k : Kind} (h : continues? k = some .call) :
    k = .symbol .leftParen ∨ k = .symbol .dot := by
  unfold continues? at h
  split at h <;> first | exact .inl rfl | exact .inr rfl | exact nomatch h

lemma continues?_ne_unary (k : Kind) : continues? k ≠ some .unary := by
  unfold continues?
  split <;> nofun

lemma exprLeaves (n : ℕ) : ExprLeaves n := by
  induction n with
  | zero => constructor <;> intros <;> exact nofun
  | succ n ih =>
    constructor
    · intro l c
      have chained (hl : l.readsOn) (hne : l ≠ .call) : (expr (n + 1) l).LeavesAt c (Stops l) := by
        rw [expr_readsOn hl]
        refine leavesAt_bind fun e c₁ h => ?_
        rw [readOn_of_ne_call hne]
        exact ih.chain _ _ _ hl hne (ih.expr _ _ _ _ h)
      cases l with
      | assignment =>
        rw [Grammar.expr]
        refine leavesAt_bind fun target c₁ h => leavesAt_accept_bind (fun hp => ?_) fun t c₂ => ?_
        · refine leavesAt_pure (Stops.loosen (l := .assignment) (ih.expr _ _ _ _ h) ?_)
          exact continues?_ne hp fun _ => isSymbol_equal_of_continues?
        · exact leavesAt_bind fun value c₃ h => leavesAt_assignTo (ih.expr _ _ _ _ h)
      | conditional =>
        rw [Grammar.expr]
        refine leavesAt_bind fun e c₁ h => leavesAt_accept_bind (fun hp => ?_) fun t c₂ => ?_
        · refine leavesAt_pure (Stops.loosen (l := .conditional) (ih.expr _ _ _ _ h) ?_)
          exact continues?_ne hp fun _ => isSymbol_question_of_continues?
        · exact leavesAt_bind fun _ _ _ => leavesAt_bind fun _ _ _ => leavesAt_bind fun _ _ h =>
            leavesAt_pure (ih.expr _ _ _ _ h)
      | unary =>
        rw [Grammar.expr]
        refine leavesAt_accept_bind (fun _ => ?_) fun t c₁ => ?_
        · intro e c' h
          exact Stops.loosen (l := .unary) (ih.expr _ _ _ _ h) fun t _ => continues?_ne_unary t.kind
        · exact leavesAt_bind fun _ _ h => leavesAt_pure (ih.expr _ _ _ _ h)
      | call => exact leavesAt_bind fun e c₁ _ => ih.suffixes e c₁
      | primary => exact fun a c' _ => stops_primary _
      | _ => exact chained rfl (by decide)
    · intro l e c hl hne hstops
      rw [Grammar.chain]
      refine leavesAt_accept_bind (fun hp => ?_) fun op c₁ => ?_
      · refine leavesAt_pure (hstops.loosen ?_)
        exact continues?_ne hp fun k hk => chains_of_continues? hk hl hne
      · exact leavesAt_bind fun right c₂ h => ih.chain _ _ _ hl hne (ih.expr _ _ _ _ h)
    · intro e c
      rw [Grammar.suffixes]
      refine leavesAt_bind fun t c₁ h => ?_
      obtain ⟨rfl, rfl⟩ : c.front = t ∧ c = c₁ := by cases h; exact ⟨rfl, rfl⟩
      split
      · exact leavesAt_bind fun _ _ _ => leavesAt_bind fun _ _ _ => leavesAt_bind fun _ _ _ =>
          ih.suffixes _ _
      · exact leavesAt_bind fun _ _ _ => leavesAt_bind fun _ _ _ => ih.suffixes _ _
      · rename_i hparen hdot
        refine leavesAt_pure (Stops.loosen (l := .call) (stops_primary _) fun t ht hk => ?_)
        have hfront : c.front = t := by
          rw [Cursor.front, List.headD_eq_head?_getD, Option.mem_def.mp ht, Option.getD_some]
        rcases continues?_call hk with hk | hk
        · exact hparen (hfront ▸ hk)
        · exact hdot (hfront ▸ hk)

/-- An expression stops where its level does, whether or not there were complaints in it. -/
lemma stops_of_expr {n : ℕ} {l : Level} {c c' : Cursor} {e : Expr}
    (h : expr n l c = .done e c') : Stops l c'.rest :=
  (exprLeaves n).expr l c e c' h

/-! ### One operator -/

/-- How a level goes on after its next tighter one: not at all where it stops. -/
lemma exists_goesOn {l : Level} (hunary : l ≠ .unary) (hprimary : l ≠ .primary) :
    ∃ f : ℕ → Expr → Rule Expr, (∀ n, expr (n + 1) l = expr n l.tighter >>= f n) ∧
      ∀ e c, Stops l c.rest → Settles (fun n => f n e) c (· = .done e c) := by
  have reads (hl : l.readsOn) : ∃ f : ℕ → Expr → Rule Expr,
      (∀ n, expr (n + 1) l = expr n l.tighter >>= f n) ∧
        ∀ e c, Stops l c.rest → Settles (fun n => f n e) c (· = .done e c) :=
    ⟨readOn l, expr_readsOn hl, fun _ _ => settles_readOn⟩
  cases l with
  | assignment =>
    refine ⟨_, fun n => by rw [Grammar.expr]; rfl, fun e c hc => ?_⟩
    refine settles_not_accept_bind (hc.head fun k hk => ?_) (settles_pure rfl)
    exact ⟨.assignment, by rw [kind_of_isSymbol hk]; rfl, le_rfl⟩
  | conditional =>
    refine ⟨_, fun n => by rw [Grammar.expr]; rfl, fun e c hc => ?_⟩
    refine settles_not_accept_bind (hc.head fun k hk => ?_) (settles_pure rfl)
    exact ⟨.conditional, by rw [kind_of_isSymbol hk]; rfl, le_rfl⟩
  | unary => exact absurd rfl hunary
  | primary => exact absurd rfl hprimary
  | _ => exact reads rfl

/-- An expression comes to something, which does not depend on the allowance. -/
lemma exists_expr (l : Level) (c : Cursor) :
    ∃ o, o ≠ .exhausted ∧ ∀ᶠ n in atTop, expr n l c = o := by
  have hne := ((exprEnds (16 * c.rest.length + l.height + 2)).expr l c le_rfl).ne_exhausted
  exact ⟨_, hne, eventually_atTop.mpr ⟨_, fun n hn => Rule.eq_of_le (expr_mono l hn) hne⟩⟩

/-- The cursor behind an operator that is reported. -/
def Cursor.pastStray (c : Cursor) (op : Token) (rest : List Token) : Cursor :=
  { c with rest, complaints := complaint op .missingLeftOperand :: c.complaints }

section
variable {op : Token} {rest : List Token} {c : Cursor} {l m : Level}

lemma isUnary_of_ofStray? {k : Kind} (h : Level.ofStray? k = some m) : isUnary k = false := by
  unfold Level.ofStray? at h
  split at h <;> first | rfl | exact nomatch h

lemma height_of_ofStray? {k : Kind} (h : Level.ofStray? k = some m) :
    Level.unary.height < m.height := by
  unfold Level.ofStray? at h
  split at h <;> cases h <;> decide

lemma primary_stray (hc : c.rest = op :: rest) (hop : Level.ofStray? op.kind = some m) (n : ℕ) :
    primary (n + 1) c = expr n m (c.pastStray op rest) := by
  obtain ⟨kind, lexeme, line⟩ := op
  obtain ⟨before, stop, hstop, i, cs⟩ := c
  obtain rfl : before = _ := hc
  unfold Level.ofStray? at hop
  split at hop <;> rename_i hkind <;> cases hop <;> cases hkind <;> rfl

/-- The levels up to the one of the operator read what it goes on with. -/
lemma settles_up_to_stray (hc : c.rest = op :: rest) (hop : Level.ofStray? op.kind = some m)
    {o : Outcome Expr} (hne : o ≠ .exhausted)
    (ho : ∀ᶠ n in atTop, expr n m (c.pastStray op rest) = o) (hl : l.height ≤ m.height) :
    Settles (fun n => expr n l) c (· = o) := by
  induction hk : l.height generalizing l with
  | zero =>
    obtain rfl : l = .primary := Level.eq_of_height_eq hk
    refine settles_succ (settles_succ ⟨o, rfl, ?_⟩)
    filter_upwards [ho] with n hn
    change primary (n + 1) c = o
    rw [primary_stray hc hop, hn]
  | succ k ih =>
    have hheight := Level.height_tighter l
    have htighter := ih (l := l.tighter) (by omega) (by omega)
    by_cases hunary : l = .unary
    · subst hunary
      refine settles_succ ?_
      simp only [expr]
      refine settles_not_accept_bind ?_ htighter
      simpa [hc] using isUnary_of_ofStray? hop
    · obtain ⟨f, hf, hstops⟩ := exists_goesOn hunary (by rintro rfl; simp [Level.height] at hk)
      refine settles_succ ?_
      simp only [hf]
      obtain ⟨_, heq, htighter⟩ := htighter
      rw [heq] at htighter
      cases o with
      | done e c₁ =>
        obtain ⟨n, hn⟩ := ho.exists
        have hlevel : Stops l c₁.rest := (stops_of_expr hn).mono hl
        exact settles_of_eventually htighter (hstops e c₁ hlevel)
      | failed e c₁ =>
        refine ⟨_, rfl, ?_⟩
        filter_upwards [htighter] with n hn
        rw [bind_apply, hn]
      | exhausted => exact absurd rfl hne

/-- In front of an expression of a level as loose as the operator or looser, the operator makes no
difference but its complaint. -/
lemma expr_stray (hc : c.rest = op :: rest) (hop : Level.ofStray? op.kind = some m)
    (hl : m.height ≤ l.height) :
    ∀ᶠ n in atTop, expr n l c = expr n l (c.pastStray op rest) := by
  induction hk : l.height - m.height generalizing l with
  | zero =>
    obtain rfl : l = m := Level.eq_of_height_eq (by omega)
    obtain ⟨o, hne, ho⟩ := exists_expr l (c.pastStray op rest)
    obtain ⟨_, rfl, hread⟩ := settles_up_to_stray hc hop hne ho le_rfl
    filter_upwards [ho, hread] with n hn hn'
    rw [hn, hn']
  | succ k ih =>
    have hunary := height_of_ofStray? hop
    obtain ⟨f, hf, -⟩ := exists_goesOn (l := l) (by rintro rfl; omega)
      (by rintro rfl; simp [Level.height] at hk)
    have hheight := Level.height_tighter l
    have htighter := ih (l := l.tighter) (by omega) (by omega)
    obtain ⟨N, hN⟩ := eventually_atTop.mp htighter
    refine eventually_atTop.mpr ⟨N + 1, fun n hn => ?_⟩
    obtain ⟨n, rfl⟩ : ∃ k, n = k + 1 := ⟨n - 1, by omega⟩
    rw [hf, bind_apply, bind_apply, hN n (by omega)]

end

/-! ### Many operators -/

/-- The binary operators that cannot begin an operand, the comma among them. -/
def strayOperators : List Symbol :=
  [.comma, .bangEqual, .equalEqual, .greater, .greaterEqual, .less, .lessEqual, .plus, .star,
    .slash]

lemma exists_ofStray? {s : Symbol} (h : s ∈ strayOperators) :
    ∃ m, Level.ofStray? (.symbol s) = some m := by
  simp only [strayOperators, List.mem_cons, List.not_mem_nil, or_false] at h
  rcases h with rfl | rfl | rfl | rfl | rfl | rfl | rfl | rfl | rfl | rfl <;> exact ⟨_, rfl⟩

/-- One of the operators that cannot begin an operand. -/
def IsStray (t : Token) : Prop := ∃ s ∈ strayOperators, t.kind = .symbol s

instance (t : Token) : Decidable (IsStray t) :=
  inferInstanceAs (Decidable (∃ s ∈ strayOperators, t.kind = .symbol s))

/-- The complaint about such an operator. -/
def missingOperand (t : Token) : Complaint := complaint t .missingLeftOperand

/-- The cursor behind operators that are reported. -/
def Cursor.pastStrays (c : Cursor) (ops rest : List Token) : Cursor :=
  { c with rest, complaints := (ops.map missingOperand).reverse ++ c.complaints }

/-- Operators in front of an expression make no difference but a complaint each. -/
lemma expression_strays {ops rest : List Token} {c : Cursor} (hops : ∀ t ∈ ops, IsStray t)
    (hc : c.rest = ops ++ rest) :
    ∀ᶠ n in atTop, expression n c = expression n (c.pastStrays ops rest) := by
  induction ops generalizing c with
  | nil =>
    obtain rfl : c.rest = rest := hc
    exact .of_forall fun n => rfl
  | cons op ops ih =>
    obtain ⟨s, hs, hkind⟩ := hops op (List.mem_cons_self ..)
    obtain ⟨m, hm⟩ := exists_ofStray? hs
    have hfirst := expr_stray hc (hkind ▸ hm) (l := .comma) (Level.height_le m)
    have hrest := ih (c := c.pastStray op (ops ++ rest))
      (fun t ht => hops t (List.mem_cons_of_mem _ ht)) rfl
    filter_upwards [hfirst, hrest] with n hn hn'
    refine (hn.trans hn').trans ?_
    refine congrArg _ ?_
    simp [Cursor.pastStrays, Cursor.pastStray, missingOperand]

lemma beforeEnd_eq_self {ts : List Token} (h : ∀ t ∈ ts, t.kind ≠ .eof) : beforeEnd ts = ts :=
  List.takeWhile_eq_self_iff.mpr fun t ht => by
    simpa using mt Kind.eq_eof_of_isEof (h t ht)

/-- A missing left operand does not cascade. Where some tokens are one expression, binary
operators that are put in front give one complaint each, in order, and no other. All the tokens
are read, and the tree is that of the expression, up to the numbers of its nodes. -/
theorem singleExpression_of_strays {ops ts : List Token} {i j : NodeId} {e : Expr}
    (hts : ∀ t ∈ ts, t.kind ≠ .eof) (he : (singleExpression ts i).result = .ok e)
    (hne : ops ≠ []) (hops : ∀ t ∈ ops, IsStray t) :
    (singleExpression (ops ++ ts) j).result =
        .error (ops.map fun t => complaint t .missingLeftOperand) ∧
      ∃ e' c, expression (allowance (ops ++ ts)) (.start (ops ++ ts) j) = .done e' c ∧
        c.rest = [] ∧ e'.unnumbered = e.unnumbered := by
  have hread := singleExpression_sound he
  rw [beforeEnd_eq_self hts] at hread
  have hfront : (Cursor.start (ops ++ ts) j).rest = ops ++ ts := by
    refine beforeEnd_eq_self fun t ht => ?_
    rcases List.mem_append.mp ht with ht | ht
    · obtain ⟨s, -, hkind⟩ := hops t ht
      simp [hkind]
    · exact hts t ht
  have hcovers := (hread.level.covers hread.narrow).1 ts []
    ((Cursor.start (ops ++ ts) j).pastStrays ops ts)
    hread.spelled (stops_nil _) (List.append_nil _).symm
  obtain ⟨e', k, he', hev⟩ := hcovers.exists_done
  obtain ⟨n, hn, hn'⟩ := ((expression_strays hops hfront).and hev).exists
  have hdone := hn.trans hn'
  have hall := expression_of_enough (ops ++ ts) j (n := n) (by rw [hdone]; nofun)
  rw [hdone] at hall
  refine ⟨?_, e', _, hall, rfl, he'⟩
  rw [singleExpression, hall]
  simp [Cursor.finish, Cursor.pastStrays, Cursor.start, hne, missingOperand]

/-- A comma and a star in front of `a = b` give a complaint each. -/
theorem singleExpression_of_strays_assignment :
    let tokens : List Token := [⟨.symbol .comma, ",", 1⟩, ⟨.symbol .star, "*", 2⟩,
      ⟨.identifier, "a", 2⟩, ⟨.symbol .equal, "=", 3⟩, ⟨.identifier, "b", 3⟩]
    (singleExpression tokens 0).result = .error
        [.grammar 1 (.of ⟨.symbol .comma, ",", 1⟩) .missingLeftOperand,
          .grammar 2 (.of ⟨.symbol .star, "*", 2⟩) .missingLeftOperand] ∧
      ∃ e c, expression (allowance tokens) (.start tokens 0) = .done e c ∧ c.rest = [] := by
  intro tokens
  have hread : (singleExpression (tokens.drop 2) 0).result =
      .ok (.assign 2 ⟨.identifier, "a", 2⟩ (.reference 1 ⟨.identifier, "b", 3⟩)) := rfl
  have hops : ∀ t ∈ tokens.take 2, IsStray t := by decide
  obtain ⟨herror, e, c, hdone, hrest, -⟩ :=
    singleExpression_of_strays (j := 0) (by decide) hread (by decide) hops
  exact ⟨herror, e, c, hdone, hrest⟩

end Lox.Grammar
