import Lox.Proofs.Grammar.Slipping

/-!
Statements without their semicolons.

A simple statement is a stem and a semicolon. Where the semicolon is lost, the statement fails at
what comes next, unless that is an expression which the stem goes on with. What stands in front of
the statement, such as the head of a loop, makes no difference.
-/

namespace Lox.Grammar

open Rule

variable {α : Type} {c : Cursor} {r : ℕ → Rule α} {ts us rest pre : List Token} {t : Token}

/-! ### Stems -/

/-- What a rule does with a text after which a semicolon is lost. Before a word that starts a
statement, or at the end of input, it stops or fails. Before an expression it stops, or it reads the
expression too with one complaint at most. -/
structure Stem (r : ℕ → Rule α) (ts : List Token) : Prop where
  halts : ∀ c rest, (∀ t ∈ rest.head?, startsStatement t.kind) → c.rest = ts ++ rest →
    FailsAt r c rest ∨ YieldsAt r c rest fun _ => True
  meets : ∀ e t us, Expression e (t :: us) → e.widest ≤ maxArguments →
    (t.kind = .symbol .leftParen → commas us < maxArguments) →
      (∀ c rest, c.rest = ts ++ (t :: us ++ rest) →
        YieldsAt r c (t :: us ++ rest) fun _ => True) ∨
      ∀ c rest semicolon, semicolon.kind = .symbol .semicolon →
        c.rest = ts ++ (t :: us ++ semicolon :: rest) → SlipsAt r c (semicolon :: rest)

lemma stops_of_starts (h : ∀ t ∈ rest.head?, startsStatement t.kind) : Stops .comma rest := by
  intro t ht l hl
  rw [(inert_of_startsStatement (h t ht)).2.1] at hl
  cases hl

/-- A token that begins an expression and does not go on with one. -/
lemma continues?_of_begins (hbegins : begins t.kind) (hminus : t.kind ≠ .symbol .minus)
    (hparen : t.kind ≠ .symbol .leftParen) : continues? t.kind = none := by
  unfold begins at hbegins
  split at hbegins <;> simp_all [continues?]

lemma stops_semicolon {semicolon : Token} (h : semicolon.kind = .symbol .semicolon) (l : Level)
    (rest : List Token) : Stops l (semicolon :: rest) :=
  stops_of_not_continues (by rw [h]; rfl)

lemma stem_expression {e : Expr} (he : Expression e ts) (hw : e.widest ≤ maxArguments) :
    Stem expression ts where
  halts c rest hrest hc :=
    .inr (((he.1.covers hw).1 ts rest c he.2 (stops_of_starts hrest) hc).mono fun _ _ => trivial)
  meets e' t us he' hw' hlist := by
    -- of the tokens that begin an expression, only these two go on with one
    by_cases ht : t.kind = .symbol .minus ∨ t.kind = .symbol .leftParen
    · refine .inr fun c rest semicolon hsemicolon hc => ?_
      exact he.slipsAt_append hw he' hw' (ht.imp_right fun hparen => ⟨hparen, hlist hparen⟩)
        (stops_semicolon hsemicolon _ _) hc
    · obtain ⟨hminus, hparen⟩ := not_or.mp ht
      refine .inl fun c rest hc => ?_
      obtain ⟨_, _, hcons, hbegins⟩ := he'.begins
      obtain ⟨rfl, rfl⟩ := List.cons.inj hcons
      have hstops : Stops .comma (t :: us ++ rest) :=
        stops_of_not_continues (continues?_of_begins hbegins hminus hparen)
      exact ((he.1.covers hw).1 ts _ c he.2 hstops hc).mono fun _ _ => trivial

lemma Stem.map {β : Type} (h : Stem r ts) (f : α → β) : Stem (fun n => f <$> r n) ts where
  halts c rest hrest hc :=
    (h.halts c rest hrest hc).imp (·.map f) fun hyields =>
      yieldsAt_map (hyields.mono fun _ _ => trivial)
  meets e t us he hw hlist :=
    (h.meets e t us he hw hlist).imp
      (fun hyields c rest hc => yieldsAt_map ((hyields c rest hc).mono fun _ _ => trivial))
      fun hslips c rest semicolon hsemicolon hc => (hslips c rest semicolon hsemicolon hc).map f

/-- What stands in front of a stem makes no difference. -/
lemma Stem.after {r' : ℕ → Rule α} (front : List Token) (h : Stem r ts)
    (hstep : ∀ (c : Cursor) us S, c.rest = front ++ (ts ++ us) →
      Settles r { c with rest := ts ++ us } S → Settles r' c S) : Stem r' (front ++ ts) where
  halts c rest hrest hc := by
    rw [List.append_assoc] at hc
    exact (h.halts { c with rest := ts ++ rest } rest hrest rfl).imp
      (hstep c _ _ hc) (hstep c _ _ hc)
  meets e t us he hw hlist := by
    refine (h.meets e t us he hw hlist).imp (fun hyields c rest hc => ?_)
      fun hslips c rest semicolon hsemicolon hc => ?_
    · rw [List.append_assoc] at hc
      exact hstep c _ _ hc (hyields { c with rest := ts ++ (t :: us ++ rest) } rest rfl)
    · rw [List.append_assoc] at hc
      exact hstep c _ _ hc (hslips { c with rest := ts ++ (t :: us ++ semicolon :: rest) } rest
        semicolon hsemicolon rfl)

/-- The value of a return statement. -/
lemma stem_value {e : Expr} (he : Expression e ts) (hw : e.widest ≤ maxArguments) :
    Stem (fun n => unlessSees .semicolon none (some <$> expression n)) ts := by
  obtain ⟨t, us, rfl, ht⟩ := he.begins
  refine ((stem_expression he hw).map some).after [] fun c vs S hc hS => ?_
  obtain ⟨rest, stop, hstop, i, cs⟩ := c
  obtain rfl : rest = t :: us ++ vs := hc
  exact settles_not_unlessSees rfl (isSymbol_eq_false ht rfl) hS

/-- A return statement without a value takes the expression that comes next. -/
lemma stem_noValue : Stem (fun n => unlessSees .semicolon none (some <$> expression n)) [] where
  halts c rest hrest hc := by
    obtain rfl : c.rest = rest := hc
    have hfails := (failsAt_expr .comma hrest).map some
    refine .inl ?_
    cases hc : c.rest with
    | nil =>
      have hsees : seesSymbol .semicolon c = .done false c := by simp [seesSymbol, sees, hc]
      exact settles_of_done hsees (hc ▸ hfails)
    | cons t us =>
      refine settles_not_unlessSees hc ?_ (hc ▸ hfails)
      exact isSymbol_eq_false (hrest t (by simp [hc])) rfl
  meets e t us he hw hlist := by
    refine .inr fun c rest semicolon hsemicolon hc => ?_
    obtain ⟨_, _, hcons, hbegins⟩ := he.begins
    obtain ⟨rfl, rfl⟩ := List.cons.inj hcons
    refine settles_not_unlessSees hc (isSymbol_eq_false hbegins rfl) ?_
    exact (yieldsAt_expression rest he hw hsemicolon rfl hc).slipsAt.map some

/-- A declaration without an initializer. -/
lemma stem_noInitializer : Stem initializer [] where
  halts c rest hrest hc := by
    refine .inr (settles_not_accept_bind (fun t ht => ?_) (yieldsAt_pure trivial hc))
    rw [hc] at ht
    exact isSymbol_eq_false (hrest t ht) rfl
  meets e t us he _ _ := by
    refine .inl fun c rest hc => ?_
    obtain ⟨_, _, hcons, hbegins⟩ := he.begins
    obtain ⟨rfl, rfl⟩ := List.cons.inj hcons
    refine settles_not_accept_bind ?_ (yieldsAt_pure trivial hc)
    simpa [hc] using isSymbol_eq_false hbegins rfl

lemma stem_initializer {e : Expr} {equals : Token} (hequals : equals.kind = .symbol .equal)
    (he : Expression e ts) (hw : e.widest ≤ maxArguments) : Stem initializer (equals :: ts) := by
  refine ((stem_expression he hw).map some).after [equals] fun c us S hc hS => ?_
  exact settles_accept_bind hc (by rw [hequals]; rfl) hS

/-- Where nothing is read at all. -/
lemma stem_pure (a : α) : Stem (fun _ => pure a) [] where
  halts _ _ _ hc := .inr (yieldsAt_pure trivial hc)
  meets _ _ _ _ _ _ := .inl fun _ _ hc => yieldsAt_pure trivial hc

/-! ### Without a semicolon -/

/-- What a rule does with a statement that has lost its semicolon. At a word that starts a
statement, or at the end of input, it fails. At the statement of an expression it fails, or it reads
that too with one complaint at most. -/
structure Unterminated (r : ℕ → Rule α) (ts : List Token) : Prop where
  halts : ∀ c rest, (∀ t ∈ rest.head?, startsStatement t.kind) → c.rest = ts ++ rest →
    FailsAt r c rest
  meets : ∀ e t us, Expression e (t :: us) → e.widest ≤ maxArguments →
    (t.kind = .symbol .leftParen → commas us < maxArguments) →
      (∀ c rest, c.rest = ts ++ (t :: us ++ rest) → FailsAt r c (t :: us ++ rest)) ∨
      ∀ c rest semicolon, semicolon.kind = .symbol .semicolon → NoElse rest →
        c.rest = ts ++ (t :: us ++ semicolon :: rest) → SlipsAt r c rest

lemma Stem.unterminated {β : Type} (h : Stem r ts) (site : Site) (k : α → β) :
    Unterminated (fun n => r n >>= fun a => expectSymbol .semicolon site >>= fun _ => pure (k a))
      ts where
  halts c rest hrest hc := by
    rcases h.halts c rest hrest hc with hfails | hyields
    · exact hfails.bind _
    · refine settles_bind hyields fun a j _ => failsAt_expect (fun t ht => ?_) _ _
      exact isSymbol_eq_false (hrest t ht) rfl
  meets e t us he hw hlist := by
    refine (h.meets e t us he hw hlist).imp (fun hyields c rest hc => ?_)
      fun hslips c rest semicolon hsemicolon _ hc => ?_
    · obtain ⟨_, _, hcons, hbegins⟩ := he.begins
      obtain ⟨rfl, rfl⟩ := List.cons.inj hcons
      refine settles_bind (hyields c rest hc) fun a j _ => failsAt_expect (fun u hu => ?_) _ _
      obtain rfl : t = u := by simpa using hu
      exact isSymbol_eq_false hbegins rfl
    · refine (hslips c rest semicolon hsemicolon hc).bind fun a c₁ hc₁ => ?_
      exact settles_expect_bind hc₁ (by rw [hsemicolon]; rfl) (yieldsAt_pure trivial rfl)

/-- What stands in front of the statement makes no difference. -/
lemma Unterminated.after {r' : ℕ → Rule α} (front : List Token) (h : Unterminated r ts)
    (hstep : ∀ (c : Cursor) us S, c.rest = front ++ (ts ++ us) →
      Settles r { c with rest := ts ++ us } S → Settles r' c S) :
    Unterminated r' (front ++ ts) where
  halts c rest hrest hc := by
    rw [List.append_assoc] at hc
    exact hstep c _ _ hc (h.halts { c with rest := ts ++ rest } rest hrest rfl)
  meets e t us he hw hlist := by
    refine (h.meets e t us he hw hlist).imp (fun hfails c rest hc => ?_)
      fun hslips c rest semicolon hsemicolon helse hc => ?_
    · rw [List.append_assoc] at hc
      exact hstep c _ _ hc (hfails { c with rest := ts ++ (t :: us ++ rest) } rest rfl)
    · rw [List.append_assoc] at hc
      exact hstep c _ _ hc (hslips { c with rest := ts ++ (t :: us ++ semicolon :: rest) } rest
        semicolon hsemicolon helse rfl)

/-- The same, where the statement is part of another, which ends with it. -/
lemma Unterminated.within {β ι : Type} {r' : ℕ → Rule β} {front : List Token}
    (k : ι → ℕ → α → Rule β) (h : Unterminated r ts)
    (hk : ∀ i a (c : Cursor), NoElse c.rest →
      YieldsAt (fun n => k i n a) c c.rest fun _ => True)
    (hstep : ∀ (c : Cursor) us S, c.rest = front ++ (ts ++ us) →
      (∀ i j, Settles (fun n => r n >>= k i n) { c with rest := ts ++ us, nextId := j } S) →
        Settles r' c S) :
    Unterminated r' (front ++ ts) where
  halts c rest hrest hc := by
    rw [List.append_assoc] at hc
    exact hstep c _ _ hc fun i j =>
      (h.halts { c with rest := ts ++ rest, nextId := j } rest hrest rfl).bind _
  meets e t us he hw hlist := by
    refine (h.meets e t us he hw hlist).imp (fun hfails c rest hc => ?_)
      fun hslips c rest semicolon hsemicolon helse hc => ?_
    · rw [List.append_assoc] at hc
      exact hstep c _ _ hc fun i j =>
        (hfails { c with rest := ts ++ (t :: us ++ rest), nextId := j } rest rfl).bind _
    · rw [List.append_assoc] at hc
      refine hstep c _ _ hc fun i j => ?_
      refine (hslips { c with rest := ts ++ (t :: us ++ semicolon :: rest), nextId := j } rest
        semicolon hsemicolon helse rfl).bind fun a c₁ hc₁ => ?_
      subst hc₁
      exact hk i a c₁ helse

/-! ### All statements -/

section
variable {semicolon : Token}

/-- The last token of the tokens is that of their end. -/
lemma exists_init {vs : List Token} (front : List Token) (hvs : vs ≠ [])
    (h : front ++ vs = pre ++ [semicolon]) :
    ∃ vs', vs = vs' ++ [semicolon] ∧ pre = front ++ vs' := by
  obtain rfl | ⟨vs', t, rfl⟩ := vs.eq_nil_or_concat
  · exact absurd rfl hvs
  · rw [List.concat_eq_append, ← List.append_assoc] at h
    obtain ⟨rfl, ht⟩ := List.append_inj' h rfl
    obtain rfl : t = semicolon := List.singleton_inj.mp ht
    exact ⟨vs', by simp, rfl⟩

lemma not_brace_last {brace : Token} (front : List Token)
    (hsemicolon : semicolon.kind = .symbol .semicolon) (hbrace : brace.kind = .symbol .rightBrace) :
    front ++ [brace] ≠ pre ++ [semicolon] := by
  intro h
  obtain ⟨-, hlast⟩ := List.append_inj' h rfl
  rw [List.singleton_inj.mp hlast, hsemicolon] at hbrace
  cases hbrace

lemma Derives.ne_nil_of_statement {strict o : Bool} {s : Stmt}
    (h : Derives strict .statement s o ts) : ts ≠ [] := by
  obtain ⟨t, us, rfl, -⟩ := h.starts_of_statement
  exact List.cons_ne_nil t us

/-- A function ends with a brace. -/
lemma Derives.exists_brace {strict o : Bool} {sort : FunctionSort} {d : FunctionDecl}
    (h : Derives strict (.function sort) d o ts) :
    ∃ us brace, ts = us ++ [brace] ∧ brace.kind = .symbol .rightBrace := by
  cases h with
  | @function _ name opening params ts closing brace body us brace' _ _ _ _ _ _ hbrace' =>
    exact ⟨name :: opening :: (ts ++ closing :: brace :: us), brace', by simp, hbrace'⟩
  | @getter name brace body us brace' _ _ _ hbrace' =>
    exact ⟨name :: brace :: us, brace', by simp, hbrace'⟩

/-- Where the text of a declaration or statement ends with a semicolon, it is one that has lost it
without that. -/
def Unended : (q : Nonterminal) → q.Tree → List Token → Prop
  | .statement, s, ts => ∀ b pre semicolon, Admissible b s → semicolon.kind = .symbol .semicolon →
      ts = pre ++ [semicolon] → Unterminated (fun n => statement n b) pre
  | .declaration, s, ts => ∀ b pre semicolon, Admissible b s → semicolon.kind = .symbol .semicolon →
      ts = pre ++ [semicolon] → Unterminated (fun n => bareDeclaration n b) pre
  | _, _, _ => True

lemma VarDecl.unended {s : Stmt} (h : VarDecl s ts) : Unended .declaration s ts := by
  intro b pre semicolon hs hsemicolon hts
  cases h with
  | @bare var name _ hvar hname _ =>
    obtain ⟨rfl, -⟩ := List.append_inj' (show [var, name] ++ [_] = _ from hts) rfl
    refine (stem_noInitializer.unterminated .afterVariable (Stmt.declare name)).after
      [var, name]
      fun c us S hc hS => settles_var_bare hvar hc ?_
    exact settles_expect_bind rfl (by rw [hname]; rfl) hS
  | @initialized var name equals e ts _ hvar hname hequals he _ =>
    obtain ⟨rfl, -⟩ := List.append_inj' (show var :: name :: equals :: ts ++ [_] = _ from hts) rfl
    have hw : e.widest ≤ maxArguments := by cases hs with | declare h => exact h e rfl
    refine ((stem_initializer hequals he hw).unterminated .afterVariable (Stmt.declare name)).after
      [var, name]
      fun c us S hc hS => settles_var_bare hvar hc ?_
    exact settles_expect_bind rfl (by rw [hname]; rfl) hS

lemma unended_exprStmt {s : Stmt} (h : ExprStmt s ts) : Unended .statement s ts := by
  intro b pre semicolon hs hsemicolon hts
  cases h with
  | @intro e ts _ he _ =>
    obtain ⟨rfl, -⟩ := List.append_inj' hts rfl
    obtain ⟨t, us, rfl, ht⟩ := he.begins
    refine ((stem_expression he (admissible_expression.mp hs)).unterminated .afterExpression
      Stmt.expression).after [] fun c vs S hc hS => ?_
    obtain ⟨rest, stop, hstop, i, cs⟩ := c
    obtain rfl : rest = t :: us ++ vs := hc
    exact settles_expressionStatement ht rfl hS

lemma unended_printStmt {e : Expr} {word semicolon : Token} (hword : word.kind = .keyword .kwPrint)
    (he : Expression e ts) : Unended .statement (.print e) (word :: (ts ++ [semicolon])) := by
  intro b pre semicolon hs hsemicolon hts
  obtain ⟨rfl, -⟩ := List.append_inj' (show word :: ts ++ [_] = _ from hts) rfl
  have hw : e.widest ≤ maxArguments := by cases hs with | print h => exact h
  exact ((stem_expression he hw).unterminated .afterValue Stmt.print).after [word]
    fun c us S hc hS => settles_printStatement hword hc hS

lemma unended_breakStmt {word semicolon : Token} (hword : word.kind = .keyword .kwBreak) :
    Unended .statement (.breakLoop word) [word, semicolon] := by
  intro b pre semicolon hs hsemicolon hts
  obtain ⟨rfl, -⟩ := List.append_inj' (show [word] ++ [_] = _ from hts) rfl
  cases hs
  exact ((stem_pure PUnit.unit).unterminated (.afterKeyword .kwBreak) fun _ =>
    Stmt.breakLoop word).after [word] fun c us S hc hS => settles_breakStatement hword hc hS

lemma unended_returnStmt {value : Option Expr} {word semicolon : Token}
    (hword : word.kind = .keyword .kwReturn) (hvalue : OptExpression value ts) :
    Unended .statement (.returnFrom word value) (word :: (ts ++ [semicolon])) := by
  intro b pre semicolon hs hsemicolon hts
  obtain ⟨rfl, -⟩ := List.append_inj' (show word :: ts ++ [_] = _ from hts) rfl
  have hw : ∀ e ∈ value, e.widest ≤ maxArguments := by cases hs with | returnFrom h => exact h
  cases hvalue with
  | none =>
    exact (stem_noValue.unterminated .afterReturnValue (Stmt.returnFrom word)).after
      [word] fun c us S hc hS => settles_returnStatement hword hc hS
  | some he =>
    exact ((stem_value he (hw _ rfl)).unterminated .afterReturnValue (Stmt.returnFrom word)).after
      [word] fun c us S hc hS => settles_returnStatement hword hc hS

section
variable {s s' : Stmt} {o o' : Bool} {e : Expr} {word word' opening closing : Token}
  {vs : List Token}

lemma unended_whileStmt (hword : word.kind = .keyword .kwWhile)
    (hopening : opening.kind = .symbol .leftParen) (he : Expression e ts)
    (hclosing : closing.kind = .symbol .rightParen) (h : Derives true .statement s o us)
    (ih : Unended .statement s us) :
    Unended .statement (.loop e s) (word :: opening :: (ts ++ closing :: us)) := by
  intro b pre semicolon hs hsemicolon hts
  obtain ⟨hw, hs⟩ := admissible_loop.mp hs
  obtain ⟨vs, rfl, rfl⟩ := exists_init (word :: opening :: (ts ++ [closing]))
    h.ne_nil_of_statement (by simpa using hts)
  refine (ih true vs semicolon hs hsemicolon rfl).within (ι := Expr)
    (fun e' _ a => pure (.loop e' a)) (fun e' a c _ => yieldsAt_pure trivial rfl)
    fun c xs S hc hS => ?_
  exact settles_whileStatement _ hword hopening he hw hclosing (by simpa using hc)
    fun e' j _ => hS e' j

lemma unended_forStmt {first : Option Stmt} {condition increment : Option Expr} {semicolon : Token}
    {ws : List Token} (hword : word.kind = .keyword .kwFor)
    (hopening : opening.kind = .symbol .leftParen) (hfirst : ForFirst first ts)
    (hcondition : OptExpression condition us) (hsemicolon : semicolon.kind = .symbol .semicolon)
    (hincrement : OptExpression increment vs) (hclosing : closing.kind = .symbol .rightParen)
    (h : Derives true .statement s o ws) (ih : Unended .statement s ws) :
    Unended .statement (forLoop first condition increment s)
      (word :: opening :: (ts ++ (us ++ semicolon :: (vs ++ closing :: ws)))) := by
  intro b pre last hs hlast hts
  obtain ⟨hf, hwc, hwi, hs⟩ := admissible_forLoop.mp hs
  obtain ⟨xs, rfl, rfl⟩ := exists_init
    (word :: opening :: (ts ++ (us ++ semicolon :: (vs ++ [closing]))))
    h.ne_nil_of_statement (by simpa using hts)
  refine (ih true xs last hs hlast rfl).within (ι := ForHead)
    (fun head _ a => pure (head.loop a)) (fun head a c _ => yieldsAt_pure trivial rfl)
    fun c ys S hc hS => ?_
  exact settles_forStatement _ hword hopening hfirst hcondition hsemicolon hincrement hclosing hf
    hwc hwi (by simpa using hc) fun head j _ => hS head j

lemma unended_ifStmt (hword : word.kind = .keyword .kwIf)
    (hopening : opening.kind = .symbol .leftParen) (he : Expression e ts)
    (hclosing : closing.kind = .symbol .rightParen) (h : Derives true .statement s o us)
    (ih : Unended .statement s us) :
    Unended .statement (.branch e s none) (word :: opening :: (ts ++ closing :: us)) := by
  intro b pre semicolon hs hsemicolon hts
  obtain ⟨hw, hs, -⟩ := admissible_branch.mp hs
  obtain ⟨vs, rfl, rfl⟩ := exists_init (word :: opening :: (ts ++ [closing]))
    h.ne_nil_of_statement (by simpa using hts)
  refine (ih b vs semicolon hs hsemicolon rfl).within (ι := Expr) (fun e' n => elseBranch n b e')
    (fun e' a c helse => ?_) fun c xs S hc hS => ?_
  · exact (yieldsAt_noElseBranch helse).mono fun _ _ => trivial
  · exact settles_ifStatement _ hword hopening he hw hclosing (by simpa using hc)
      fun e' j _ => hS e' j

lemma unended_ifElse (hword : word.kind = .keyword .kwIf)
    (hopening : opening.kind = .symbol .leftParen) (he : Expression e ts)
    (hclosing : closing.kind = .symbol .rightParen) (hword' : word'.kind = .keyword .kwElse)
    (h : Derives true .statement s false us) (h' : Derives true .statement s' o' vs)
    (ih' : Unended .statement s' vs) :
    Unended .statement (.branch e s (some s'))
      (word :: opening :: (ts ++ closing :: (us ++ word' :: vs))) := by
  intro b pre semicolon hs hsemicolon hts
  obtain ⟨hw, hs, hs'⟩ := admissible_branch.mp hs
  obtain ⟨xs, rfl, rfl⟩ := exists_init
    (word :: opening :: (ts ++ closing :: (us ++ [word'])))
    h'.ne_nil_of_statement (by simpa using hts)
  refine (ih' b xs semicolon (hs' s' rfl) hsemicolon rfl).within (ι := Expr × Stmt)
    (fun p _ a => pure (.branch p.1 p.2 (some a))) (fun p a c _ => yieldsAt_pure trivial rfl)
    fun c ys S hc hS => ?_
  refine settles_ifStatement (us ++ word' :: (xs ++ ys)) hword hopening he hw hclosing
    (by simpa using hc) fun e' j _ => ?_
  refine settles_bind (h.covered b hs _ (word' :: (xs ++ ys)) rfl nofun) fun r k _ => ?_
  exact settles_elseBranch hword' rfl (hS (e', r) k)

lemma unended_ofStatement (h : Derives true .statement s o ts) (ih : Unended .statement s ts) :
    Unended .declaration s ts := by
  intro b pre semicolon hs hsemicolon hts
  obtain ⟨t, us, rfl, ht⟩ := h.starts_of_statement
  refine (ih b pre semicolon hs hsemicolon hts).after [] fun c vs S hc hS => ?_
  obtain ⟨rest, stop, hstop, i, cs⟩ := c
  obtain rfl : rest = pre ++ vs := hc
  cases pre with
  | nil =>
    obtain ⟨rfl, -⟩ := List.cons.inj (show t :: us = semicolon :: [] from hts)
    rw [hsemicolon] at ht
    exact absurd ht (by decide)
  | cons u pre =>
    obtain ⟨rfl, -⟩ := List.cons.inj hts
    exact settles_statement_bare ht rfl hS

end

lemma Derives.unended {q : Nonterminal} {x : q.Tree} {o : Bool} (h : Derives true q x o ts) :
    Unended q x ts := by
  -- on the derivation: the last token of a statement is that of its last part
  induction h with
  | varDecl h => exact h.unended
  | ofStatement h ih => exact unended_ofStatement h ih
  | exprStmt h => exact unended_exprStmt h
  | printStmt hword he _ => exact unended_printStmt hword he
  | breakStmt hword _ => exact unended_breakStmt hword
  | returnStmt hword hvalue _ => exact unended_returnStmt hword hvalue
  | whileStmt hword hopening he hclosing h ih =>
    exact unended_whileStmt hword hopening he hclosing h ih
  | forStmt hword hopening hfirst hcondition hsemicolon hincrement hclosing h ih =>
    exact unended_forStmt hword hopening hfirst hcondition hsemicolon hincrement hclosing h ih
  | ifStmt hword hopening he hclosing h ih => exact unended_ifStmt hword hopening he hclosing h ih
  | ifElse hword hopening he hclosing h ho hword' h' _ ih' =>
    obtain rfl := ho rfl
    exact unended_ifElse hword hopening he hclosing hword' h h' ih'
  -- the others end with a brace
  | classDecl _ _ _ _ hclosing _ =>
    exact fun b pre semicolon _ hsemicolon hts =>
      absurd hts (not_brace_last (_ :: _ :: _ :: _) hsemicolon hclosing)
  | @funDecl word d ts _ h _ =>
    intro b pre semicolon _ hsemicolon hts
    obtain ⟨us, brace, rfl, hbrace⟩ := h.exists_brace
    exact absurd hts (not_brace_last (_ :: _) hsemicolon hbrace)
  | block _ _ hclosing _ =>
    exact fun b pre semicolon _ hsemicolon hts =>
      absurd hts (not_brace_last (_ :: _) hsemicolon hclosing)
  | _ => trivial

end

end Lox.Grammar
