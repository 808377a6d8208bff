import Lox.Proofs.Grammar.Reading

/-!
What the rules for expressions read: the text of an expression of their level.
-/

namespace Lox.Grammar

open Rule

/-- An expression of a level, read from some tokens while the numbers went from `i` to `j`. -/
structure ReadAs (l : Level) (i : NodeId) (ts : List Token) (e : Expr) (j : NodeId) : Prop where
  level : At l e
  narrow : e.widest ≤ 255
  spelled : Spells e.yield ts
  fresh : Fresh i j e.ids

/-- Arguments read from some tokens, with the comma before each but the first. -/
structure ReadEach (i : NodeId) (ts : List Token) (es : List Expr) (j : NodeId) : Prop where
  level : ∀ e ∈ es, At .assignment e
  length : es.length ≤ 255
  narrow : Expr.widestOf es ≤ 255
  spelled : Spells (Expr.yieldEach es) ts
  fresh : Fresh i j (Expr.idsOf es)

/-- Arguments read from some tokens, with a comma after each. -/
structure ReadBefore (i : NodeId) (ts : List Token) (es : List Expr) (j : NodeId) : Prop where
  level : ∀ e ∈ es, At .assignment e
  narrow : Expr.widestOf es ≤ 255
  spelled : Spells (Expr.yieldBefore es) ts
  fresh : Fresh i j (Expr.idsOf es)

lemma At.reference_kind {l : Level} {id : NodeId} {name : Token} {e : Expr} (h : At l e)
    (he : e = .reference id name) : name.kind = .identifier := by
  induction h with
  | tighter _ _ ih => exact ih he
  | reference hname => cases he; exact hname
  | _ => cases he

lemma At.property_parts {l : Level} {object : Expr} {name : Token} {e : Expr} (h : At l e)
    (he : e = .property object name) : At .call object ∧ name.kind = .identifier := by
  induction h with
  | tighter _ _ ih => exact ih he
  | property ho hname => cases he; exact ⟨ho, hname⟩
  | _ => cases he

namespace ReadAs

variable {l : Level} {i j k m : NodeId} {ts us vs : List Token} {t t' t'' : Token}
  {e e' e'' : Expr}

lemma loosen {l' : Level} (h : ReadAs l' i ts e j) (hl : l'.height < l.height) :
    ReadAs l i ts e j :=
  ⟨.tighter hl h.level, h.narrow, h.spelled, h.fresh⟩

lemma link (hop : l.chains t.kind) (h : ReadAs l i ts e j) (h' : ReadAs l.tighter j us e' k) :
    ReadAs l i (ts ++ t :: us) (l.link e t e') k where
  level := At.link hop h.level h'.level
  narrow := by rw [widest_link]; exact max_le h.narrow h'.narrow
  spelled := by rw [yield_link]; exact h.spelled.append (h'.spelled.token t)
  fresh := by rw [ids_link]; exact h.fresh.append h'.fresh

lemma assign {id : NodeId} (h : ReadAs .conditional i ts (.reference id t) j)
    (ht : t'.kind = .symbol .equal) (h' : ReadAs .assignment j us e k) :
    ReadAs .assignment i (ts ++ t' :: us) (.assign k t e) (k + 1) where
  level := .assign (h.level.reference_kind rfl) h'.level
  narrow := h'.narrow
  spelled := by
    obtain ⟨_, rfl, rfl⟩ := spells_singleton.mp h.spelled
    exact (h'.spelled.symbol ht).token _
  fresh := (h'.fresh.append (.singleton k)).widen h.fresh.le

lemma setProperty (h : ReadAs .conditional i ts (.property e t) j)
    (ht : t'.kind = .symbol .equal) (h' : ReadAs .assignment j us e' k) :
    ReadAs .assignment i (ts ++ t' :: us) (.setProperty e t e') k where
  level := .setProperty (h.level.property_parts rfl).1 (h.level.property_parts rfl).2 h'.level
  narrow := max_le h.narrow h'.narrow
  spelled := by
    have hs := h.spelled.append (h'.spelled.symbol ht)
    rw [Expr.yield, List.append_assoc] at hs
    exact hs
  fresh := h.fresh.append h'.fresh

lemma conditional (h : ReadAs .or i ts e j) (ht : t.kind = .symbol .question)
    (h' : ReadAs .comma j us e' k) (ht' : t'.kind = .symbol .colon)
    (h'' : ReadAs .conditional k vs e'' m) :
    ReadAs .conditional i (ts ++ t :: (us ++ t' :: vs)) (.conditional e e' e'') m where
  level := .conditional h.level h'.level h''.level
  narrow := max_le h.narrow (max_le h'.narrow h''.narrow)
  spelled := h.spelled.append ((h'.spelled.append (h''.spelled.symbol ht')).symbol ht)
  fresh := h.fresh.append (h'.fresh.append h''.fresh)

lemma unary (ht : isUnary t.kind) (h : ReadAs .unary i ts e j) :
    ReadAs .unary i (t :: ts) (.unary t e) j :=
  ⟨.unary (isUnary_iff.mp ht) h.level, h.narrow, h.spelled.token t, h.fresh⟩

lemma call {arguments : List Expr} (h : ReadAs .call i ts e j) (ht : t.kind = .symbol .leftParen)
    (h' : ReadEach j us arguments k) (ht' : t'.kind = .symbol .rightParen) :
    ReadAs .call i (ts ++ t :: (us ++ [t'])) (.call e t' arguments) k where
  level := .call h.level ht' h'.level
  narrow := max_le h.narrow (max_le h'.length h'.narrow)
  spelled := h.spelled.append ((h'.spelled.append (Spells.nil.token t')).symbol ht)
  fresh := h.fresh.append h'.fresh

lemma property (h : ReadAs .call i ts e j) (ht : t.kind = .symbol .dot)
    (ht' : t'.kind = .identifier) : ReadAs .call i (ts ++ [t, t']) (.property e t') j where
  level := .property h.level ht'
  narrow := h.narrow
  spelled := h.spelled.append ((Spells.nil.token t').symbol ht)
  fresh := h.fresh

lemma group (ht : t.kind = .symbol .leftParen) (h : ReadAs .comma i ts e j)
    (ht' : t'.kind = .symbol .rightParen) : ReadAs .primary i (t :: (ts ++ [t'])) (.group e) j where
  level := .group h.level
  narrow := h.narrow
  spelled := (h.spelled.append (Spells.nil.symbol ht')).symbol ht
  fresh := h.fresh

lemma literal {x : Literal} (ht : t.kind = x.kind) : ReadAs .primary i [t] (.literal x) i :=
  ⟨.literal, Nat.zero_le _, Spells.nil.cons ht, .nil le_rfl⟩

lemma reference (ht : t.kind = .identifier) :
    ReadAs .primary i [t] (.reference i t) (i + 1) :=
  ⟨.reference ht, Nat.zero_le _, Spells.nil.token t, .singleton i⟩

lemma this (ht : t.kind = .keyword .kwThis) : ReadAs .primary i [t] (.this i t) (i + 1) :=
  ⟨.this ht, Nat.zero_le _, Spells.nil.token t, .singleton i⟩

end ReadAs

section
variable {i j k : NodeId} {ts us : List Token} {es : List Expr} {e : Expr}

lemma ReadEach.nil (i : NodeId) : ReadEach i [] [] i :=
  ⟨by simp, Nat.zero_le _, Nat.zero_le _, .nil, .nil le_rfl⟩

lemma ReadBefore.nil (i : NodeId) : ReadBefore i [] [] i :=
  ⟨by simp, Nat.zero_le _, .nil, .nil le_rfl⟩

lemma ReadBefore.last (h : ReadBefore i ts es j) (hlen : es.length < 255)
    (h' : ReadAs .assignment j us e k) : ReadEach i (ts ++ us) (es ++ [e]) k where
  level := List.forall_mem_append.mpr ⟨h.level, by simpa using h'.level⟩
  length := by simpa using Nat.succ_le_of_lt hlen
  narrow := by
    rw [Expr.widestOf_append]
    exact max_le h.narrow (max_le h'.narrow (Nat.zero_le _))
  spelled := by
    rw [Expr.yieldEach_append_singleton]
    exact h.spelled.append h'.spelled
  fresh := by
    rw [Expr.idsOf_append]
    simpa [Expr.idsOf] using h.fresh.append h'.fresh

lemma ReadBefore.snoc {t : Token} (h : ReadBefore i ts es j) (h' : ReadAs .assignment j us e k)
    (ht : t.kind = .symbol .comma) : ReadBefore i (ts ++ (us ++ [t])) (es ++ [e]) k where
  level := List.forall_mem_append.mpr ⟨h.level, by simpa using h'.level⟩
  narrow := by
    rw [Expr.widestOf_append]
    exact max_le h.narrow (max_le h'.narrow (Nat.zero_le _))
  spelled := by
    rw [Expr.yieldBefore, List.flatMap_append]
    refine h.spelled.append ?_
    simpa only [List.flatMap_cons, List.flatMap_nil, List.append_nil] using
      h'.spelled.append (Spells.nil.symbol ht)
  fresh := by
    rw [Expr.idsOf_append]
    simpa [Expr.idsOf] using h.fresh.append h'.fresh

end

/-! ### Soundness -/

/-- What the rules for expressions read with `n` steps. -/
structure ExprReads (n : ℕ) : Prop where
  expr : ∀ l c, (expr n l).ReadsAt c fun ts e c' => ReadAs l c.nextId ts e c'.nextId
  chain : ∀ l left c, (chain n l left).ReadsAt c fun us e c' =>
    ∀ i ts, ReadAs l i ts left c.nextId → ReadAs l i (ts ++ us) e c'.nextId
  suffixes : ∀ left c, (suffixes n left).ReadsAt c fun us e c' =>
    ∀ i ts, ReadAs .call i ts left c.nextId → ReadAs .call i (ts ++ us) e c'.nextId
  argumentList : ∀ found c, (argumentList n found).ReadsAt c fun us es c' =>
    ∀ i ts, ReadBefore i ts found.reverse c.nextId → ReadEach i (ts ++ us) es c'.nextId
  primary : ∀ c, (primary n).ReadsAt c fun ts e c' => ReadAs .primary c.nextId ts e c'.nextId

lemma readsAt_assignTo {c : Cursor} (target : Expr) (equals : Token) (value : Expr) :
    (assignTo target equals value).ReadsAt c fun us e c' => us = [] ∧
      ∀ i j ts ts', ReadAs .conditional i ts target j → equals.kind = .symbol .equal →
        ReadAs .assignment j ts' value c.nextId →
        ReadAs .assignment i (ts ++ equals :: ts') e c'.nextId := by
  unfold assignTo
  split
  · exact readsAt_freshId_bind (readsAt_pure ⟨rfl, fun _ _ _ _ h he h' => h.assign he h'⟩)
  · exact readsAt_pure ⟨rfl, fun _ _ _ _ h he h' => h.setProperty he h'⟩
  · exact readsAt_report_bind fun _ => readsAt_pure trivial

lemma exprReads (n : ℕ) : ExprReads n := by
  induction n with
  | zero => constructor <;> intros <;> exact readsAt_exhausted
  | succ n ih =>
    have chained : ∀ (l : Level) c, l.tighter.height < l.height →
        (Grammar.expr n l.tighter >>= Grammar.chain n l).ReadsAt c
          fun ts e c' => ReadAs l c.nextId ts e c'.nextId := fun l c hl =>
      readsAt_bind (ih.expr _ _) fun left c₁ => (ih.chain _ _ _).mono fun us e c' h ts h' =>
        h _ _ (h'.loosen hl)
    constructor
    · intro l c
      cases l with
      | assignment =>
        rw [Grammar.expr]
        refine readsAt_bind (ih.expr _ _) fun target c₁ => readsAt_accept_bind (fun _ => ?_) ?_
        · exact readsAt_pure fun ts h => by simpa using h.loosen (by decide)
        · intro equals rest _ hequals
          refine readsAt_bind (ih.expr _ _) fun value c₂ => (readsAt_assignTo _ _ _).mono ?_
          rintro _ e c' ⟨rfl, h⟩ ts' hvalue ts htarget
          rw [List.append_nil]
          exact h _ _ _ _ htarget (kind_of_isSymbol hequals) hvalue
      | conditional =>
        rw [Grammar.expr]
        refine readsAt_bind (ih.expr _ _) fun condition c₁ => readsAt_accept_bind (fun _ => ?_) ?_
        · exact readsAt_pure fun ts h => by simpa using h.loosen (by decide)
        · intro question rest _ hquestion
          refine readsAt_bind (ih.expr _ _) fun whenTrue c₂ => readsAt_expect_bind ?_
          intro colon rest hcolon
          refine readsAt_bind (ih.expr _ _) fun whenFalse c₃ => readsAt_pure ?_
          intro vs hvs us hus ts hts
          rw [List.append_nil]
          exact hts.conditional (kind_of_isSymbol hquestion) hus (kind_of_isSymbol hcolon) hvs
      | unary =>
        rw [Grammar.expr]
        refine readsAt_accept_bind (fun _ => ?_) fun op rest _ hop => ?_
        · exact (ih.expr _ _).mono fun ts e c' h => h.loosen (by decide)
        · refine readsAt_bind (ih.expr _ _) fun operand c₁ => readsAt_pure fun ts h => ?_
          rw [List.append_nil]
          exact h.unary hop
      | call =>
        exact readsAt_bind (ih.expr _ _) fun callee c₁ => (ih.suffixes _ _).mono
          fun us e c' h ts h' => h _ _ (h'.loosen (by decide))
      | primary => exact ih.primary c
      | _ => exact chained _ _ (by decide)
    · intro l left c
      rw [Grammar.chain]
      refine readsAt_accept_bind (fun _ => ?_) fun op rest _ hop => ?_
      · exact readsAt_pure fun i ts h => by simpa using h
      · refine readsAt_bind (ih.expr _ _) fun right c₁ => (ih.chain _ _ _).mono ?_
        intro us e c' h ts' hright i ts hleft
        have := h _ _ (hleft.link hop hright)
        simpa using this
    · intro left c
      rw [Grammar.suffixes]
      refine readsAt_peek_bind ?_
      cases hc : c.rest with
      | nil =>
        simp only [Cursor.front, hc, List.headD_nil, c.stop_kind]
        exact readsAt_pure fun i ts h => by simpa using h
      | cons t rest =>
        simp only [Cursor.front, hc, List.headD_cons]
        split
        · rename_i ht
          refine readsAt_advance_bind hc (readsAt_bind (P := fun us es c' =>
            ReadEach c.nextId us es c'.nextId) (readsAt_unlessSees (.nil _) ?_) ?_)
          · exact (ih.argumentList _ _).mono fun us es c' h => by simpa using h _ _ (.nil _)
          · intro arguments c₁
            refine readsAt_expect_bind fun paren rest hparen => (ih.suffixes _ _).mono ?_
            intro us e c' h vs hvs i ts hts
            simpa using h _ _ (hts.call ht hvs (kind_of_isSymbol hparen))
        · rename_i ht
          refine readsAt_advance_bind hc (readsAt_expect_bind fun name rest hname => ?_)
          refine (ih.suffixes _ _).mono fun us e c' h i ts hts => ?_
          simpa using h _ _ (hts.property ht (kind_of_isIdentifier hname))
        · exact readsAt_pure fun i ts h => by simpa using h
    · intro found c
      rw [Grammar.argumentList]
      refine readsAt_peek_bind (readsAt_require_bind fun c₀ _ hid => ?_)
      refine readsAt_bind (ih.expr _ _) fun argument c₁ => readsAt_accept_bind (fun _ => ?_) ?_
      · refine readsAt_pure fun us hus hlen i ts hts => ?_
        rw [hid] at hus
        rw [List.append_nil, List.reverse_cons]
        exact hts.last (by rw [List.length_reverse]; exact of_decide_eq_true hlen) hus
      · intro comma rest _ hcomma
        refine (ih.argumentList _ _).mono fun vs es c' h us hus hlen i ts hts => ?_
        rw [hid] at hus
        rw [List.reverse_cons] at h
        simpa using h _ _ (hts.snoc hus (kind_of_isSymbol hcomma))
    · intro c
      rw [Grammar.primary]
      refine readsAt_peek_bind ?_
      cases hc : c.rest with
      | nil =>
        simp only [Cursor.front, hc, List.headD_nil, c.stop_kind]
        exact readsAt_fail _
      | cons t rest =>
        simp only [Cursor.front, hc, List.headD_cons]
        split
        case h_8 ht =>
          refine readsAt_advance_bind hc (readsAt_bind (ih.expr _ _) fun inner c₁ => ?_)
          refine readsAt_expect_bind fun paren rest hparen => readsAt_pure fun us hus => ?_
          simpa using hus.group ht (kind_of_isSymbol hparen)
        case h_9 =>
          split
          · exact readsAt_advance_bind hc (readsAt_report_bind fun c₁ =>
              (ih.expr _ _).mono fun _ _ _ _ => trivial)
          · exact readsAt_fail _
        case h_4 ht =>
          exact readsAt_advance_bind hc (readsAt_freshId_bind (readsAt_pure (.this ht)))
        case h_7 ht =>
          exact readsAt_advance_bind hc (readsAt_freshId_bind (readsAt_pure (.reference ht)))
        all_goals
          rename_i ht
          exact readsAt_advance_bind hc (readsAt_pure (.literal ht))

end Lox.Grammar
