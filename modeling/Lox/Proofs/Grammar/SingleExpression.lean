import Lox.Proofs.Grammar.Allowance
import Lox.Proofs.Grammar.ExpressionReading
import Lox.Proofs.Grammar.ExpressionSettling

/-!
Reading a single expression is the inverse of writing one out.
-/

namespace Lox.Grammar

/-- The tokens before the first end of input. -/
def beforeEnd (tokens : List Token) : List Token := tokens.takeWhile (!·.kind.isEof)

/-- A tree that keeps to the cascade of levels, and whose calls are not too wide. -/
structure Regular (e : Expr) : Prop where
  level : At .comma e
  narrow : e.widest ≤ 255

/-! ### Neither an end of input nor a statement inside -/

/-- Tokens of the kind end neither the input nor a statement, and no statement starts with them. -/
def Continues (k : Kind) : Prop :=
  k ≠ .eof ∧ startsStatement k = false ∧ k.isSymbol .semicolon = false

lemma continues_symbol {s : Symbol} (hs : s ≠ .semicolon) : Continues (.symbol s) :=
  ⟨by simp, rfl, by simpa [Kind.isSymbol] using hs.symm⟩

lemma continues_identifier : Continues .identifier := ⟨by decide, rfl, rfl⟩

lemma continues_literal (x : Literal) : Continues x.kind := by
  rcases x with x | s | (_ | _) | _ <;> exact ⟨nofun, rfl, rfl⟩

lemma continues_of_binaryLevel? {l : Level} {k : Kind} (h : binaryLevel? k = some l) :
    Continues k := by
  unfold binaryLevel? at h
  split at h <;> first | exact continues_symbol (by decide) | cases h

lemma continues_of_logicalLevel? {l : Level} {k : Kind} (h : logicalLevel? k = some l) :
    Continues k := by
  unfold logicalLevel? at h
  split at h <;> first | exact ⟨nofun, rfl, rfl⟩ | exact nomatch h

lemma continues_of_mem_yieldEach {es : List Expr}
    (h : ∀ e ∈ es, ∀ m ∈ e.yield, Continues m.kindOf) :
    ∀ m ∈ Expr.yieldEach es, Continues m.kindOf := by
  induction es with
  | nil => simp [Expr.yieldEach]
  | cons e es ih =>
    have hrest := ih fun a ha => h a (List.mem_cons_of_mem _ ha)
    have he := h e (List.mem_cons_self ..)
    cases es with
    | nil => exact he
    | cons b es =>
      simp only [Expr.yieldEach, List.mem_append, List.mem_cons]
      rintro m (hm | rfl | hm)
      · exact he m hm
      · exact continues_symbol (by decide)
      · exact hrest m hm

lemma At.continues {l : Level} {e : Expr} (h : At l e) : ∀ m ∈ e.yield, Continues m.kindOf := by
  have chained : ∀ {left right : List Mark} {op : Token}, Continues op.kind →
      (∀ m ∈ left, Continues m.kindOf) → (∀ m ∈ right, Continues m.kindOf) →
        ∀ m ∈ left ++ .token op :: right, Continues m.kindOf := by
    intro left right op hop hl hr
    simp only [List.mem_append, List.mem_cons]
    rintro m (hm | rfl | hm)
    · exact hl m hm
    · exact hop
    · exact hr m hm
  induction h with
  | tighter _ _ ih => exact ih
  | binary hop _ _ _ ihl ihr => exact chained (continues_of_binaryLevel? hop) ihl ihr
  | logical hop _ _ _ ihl ihr => exact chained (continues_of_logicalLevel? hop) ihl ihr
  | unary hop _ ih =>
    rintro m (_ | ⟨_, hm⟩)
    · rcases hop with hop | hop <;> simp [Mark.kindOf, hop, continues_symbol]
    · exact ih m hm
  | call _ hparen _ ih ihs =>
    have := continues_of_mem_yieldEach ihs
    simp_all [Expr.yield, Mark.kindOf, Mark.symbol, or_imp, continues_symbol]
  | @literal x => simpa [Expr.yield, Mark.kindOf] using continues_literal x
  | this hk => simp [Expr.yield, Mark.kindOf, hk, Continues, startsStatement, Kind.isSymbol]
  | _ =>
    simp_all [Expr.yield, Mark.kindOf, Mark.symbol, or_imp, continues_symbol, continues_identifier]

lemma At.kindOf_ne_eof {l : Level} {e : Expr} (h : At l e) : ∀ m ∈ e.yield, m.kindOf ≠ .eof :=
  fun m hm => (h.continues m hm).1

lemma beforeEnd_append {ts rest : List Token} {stop : Token} (h : ∀ t ∈ ts, t.kind ≠ .eof)
    (hstop : stop.kind = .eof) : beforeEnd (ts ++ stop :: rest) = ts := by
  have hts : ∀ t ∈ ts, (!t.kind.isEof) = true := by
    intro t ht
    have := mt Kind.eq_eof_of_isEof (h t ht)
    simpa using this
  rw [beforeEnd, List.takeWhile_append_of_pos hts, List.takeWhile_cons_of_neg]
  · exact List.append_nil ts
  · simp [hstop, Kind.isEof]

lemma At.beforeEnd_eq {e : Expr} (h : At .comma e) {ts rest : List Token} {stop : Token}
    (hs : Spells e.yield ts) (hstop : stop.kind = .eof) : beforeEnd (ts ++ stop :: rest) = ts := by
  refine beforeEnd_append (fun t ht => ?_) hstop
  obtain ⟨m, hm, hfits⟩ := hs.exists_mark ht
  exact hfits.kind_eq ▸ h.kindOf_ne_eof m hm

/-! ### Both directions -/

lemma Cursor.finish_eq_ok {α : Type} {c : Cursor} {a b : α} :
    (c.finish a).result = .ok b ↔ c.complaints = [] ∧ a = b := by
  unfold finish
  cases c.complaints <;> simp

lemma singleExpression_sound {tokens : List Token} {firstId : NodeId} {e : Expr}
    (h : (singleExpression tokens firstId).result = .ok e) :
    ReadAs .comma firstId (beforeEnd tokens) e (singleExpression tokens firstId).nextId := by
  unfold singleExpression at h ⊢
  cases hr : expression (allowance tokens) (.start tokens firstId) with
  | done a c =>
    rw [hr] at h
    dsimp only at h ⊢
    split at h
    · rename_i hrest
      obtain ⟨hq, rfl⟩ := Cursor.finish_eq_ok.mp h
      obtain ⟨-, ts, hts, hread⟩ := (exprReads _).expr .comma _ a c hr hq
      rw [List.isEmpty_iff.mp hrest, List.append_nil] at hts
      rw [if_pos hrest, show beforeEnd tokens = ts from hts]
      exact hread
    · exact nomatch h
  | failed e c => rw [hr] at h; exact nomatch h
  | exhausted => rw [hr] at h; exact nomatch h

lemma singleExpression_complete {e : Expr} (he : Regular e) {tokens : List Token}
    (hs : Spells e.yield (beforeEnd tokens)) (firstId : NodeId) :
    ∃ e', (singleExpression tokens firstId).result = .ok e' ∧ e'.unnumbered = e.unnumbered := by
  have hcov := (he.level.covers he.narrow).1 (beforeEnd tokens) [] (.start tokens firstId) hs
    (stops_nil _) (List.append_nil _).symm
  obtain ⟨e', j, he', hev⟩ := hcov.exists_done
  obtain ⟨n, hn⟩ := hev.exists
  replace hn : expression n (.start tokens firstId) = _ := hn
  have hall := expression_of_enough tokens firstId (n := n) (by rw [hn]; exact nofun)
  rw [hn] at hall
  refine ⟨e', ?_, he'⟩
  rw [singleExpression, hall]
  rfl

/-- Reading one expression is the inverse of writing one out. **Soundness**: what is read is
regular, and its text is the tokens before the end of input. **Completeness**: the text of
every regular expression, with an end of input after it, is read as that expression, up to the
numbers of its nodes. -/
theorem singleExpression_inverse_of_yield :
    (∀ tokens firstId e, (singleExpression tokens firstId).result = .ok e →
      Regular e ∧ Spells e.yield (beforeEnd tokens)) ∧
    (∀ e, Regular e → ∀ ts, Spells e.yield ts →
      ∀ stop rest firstId, stop.kind = .eof →
        ∃ e', (singleExpression (ts ++ stop :: rest) firstId).result = .ok e' ∧
          e'.unnumbered = e.unnumbered) := by
  constructor
  · intro tokens firstId e h
    have hread := singleExpression_sound h
    exact ⟨⟨hread.level, hread.narrow⟩, hread.spelled⟩
  · intro e he ts hs stop rest firstId hstop
    have hts : beforeEnd (ts ++ stop :: rest) = ts := he.level.beforeEnd_eq hs hstop
    exact singleExpression_complete he (hts.symm ▸ hs) firstId

end Lox.Grammar
