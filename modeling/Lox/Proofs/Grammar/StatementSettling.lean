import Lox.Proofs.Grammar.Derivation
import Lox.Proofs.Grammar.ExpressionSettling
import Lox.Proofs.Grammar.Position

/-!
The tokens of every strict derivation are read as its tree, if the tree is admissible.
-/

namespace Lox.Grammar

open Rule

variable {c : Cursor} {ts us rest : List Token} {t : Token}

/-! ### Parts of statements -/

/-- An expression is read to its end, if a symbol that is no operator follows. -/
lemma yieldsAt_expression (rest : List Token) {e : Expr} {s : Symbol} (he : Expression e ts)
    (hw : e.widest ≤ 255) (ht : t.kind = .symbol s) (hs : continues? (.symbol s) = none)
    (hc : c.rest = ts ++ t :: rest) :
    YieldsAt expression c (t :: rest) (·.unnumbered = e.unnumbered) :=
  (he.1.covers hw).1 ts _ c he.2 (stops_of_not_continues (by rw [ht, hs])) hc

lemma yieldsAt_optExpression (rest : List Token) {o : Option Expr} {s : Symbol}
    (ho : OptExpression o ts) (hw : ∀ e ∈ o, e.widest ≤ 255) (ht : t.kind = .symbol s)
    (hs : continues? (.symbol s) = none) (hb : begins (.symbol s) = false)
    (hc : c.rest = ts ++ t :: rest) :
    YieldsAt (fun n => unlessSees s none (some <$> expression n)) c (t :: rest)
      (·.map Expr.unnumbered = o.map Expr.unnumbered) := by
  cases ho with
  | none =>
    rw [List.nil_append] at hc
    rw [← hc]
    exact yieldsAt_unlessSees hc ht rfl
  | some he =>
    obtain ⟨u, us, rfl, hu⟩ := he.begins
    refine settles_not_unlessSees hc (isSymbol_eq_false hu hb) (yieldsAt_map ?_)
    exact (yieldsAt_expression _ he (hw _ rfl) ht hs hc).mono fun e' he' => by simp [he']

lemma yieldsAt_varDeclaration {s : Stmt} {b : Bool} (h : VarDecl s ts) (hs : Admissible b s) :
    ∃ var us, ts = var :: us ∧ var.kind = .keyword .kwVar ∧ ∀ (c : Cursor) rest,
      c.rest = us ++ rest → YieldsAt varDeclaration c rest (·.unnumbered = s.unnumbered) := by
  cases h with
  | @bare var name semicolon hvar hname hsemicolon =>
    refine ⟨var, _, rfl, hvar, fun c rest hc => ?_⟩
    refine settles_expect_bind hc (by rw [hname]; rfl) ?_
    refine settles_bind (P := (· = none)) (settles_not_accept_bind ?_ (yieldsAt_pure rfl rfl)) ?_
    · simp [hsemicolon, Kind.isSymbol]
    · rintro _ j rfl
      exact settles_expect_bind rfl (by rw [hsemicolon]; rfl) (yieldsAt_pure rfl rfl)
  | @initialized var name equals e ts semicolon hvar hname hequals he hsemicolon =>
    refine ⟨var, _, rfl, hvar, fun c rest hc => ?_⟩
    obtain hw : e.widest ≤ 255 := by cases hs with | declare h => exact h e rfl
    have hinitial : ∀ c : Cursor, c.rest = equals :: (ts ++ semicolon :: rest) →
        YieldsAt initializer c (semicolon :: rest)
          (·.map Expr.unnumbered = some e.unnumbered) := by
      intro c hc
      refine settles_accept_bind hc (by rw [hequals]; rfl) (yieldsAt_map ?_)
      exact (yieldsAt_expression _ he hw hsemicolon rfl rfl).mono fun e' he' => by simp [he']
    refine settles_expect_bind hc (by rw [hname]; rfl) ?_
    refine settles_bind (hinitial _ (by simp)) fun o j ho => ?_
    refine settles_expect_bind rfl (by rw [hsemicolon]; rfl) (yieldsAt_pure ?_ rfl)
    simp [Stmt.unnumbered, ho]

lemma yieldsAt_expressionStatement {s : Stmt} {b : Bool} (h : ExprStmt s ts)
    (hs : Admissible b s) (hc : c.rest = ts ++ rest) :
    YieldsAt expressionStatement c rest (·.unnumbered = s.unnumbered) := by
  cases h with
  | intro he hsemicolon =>
    rw [List.append_assoc] at hc
    have hw := admissible_expression.mp hs
    refine settles_bind (yieldsAt_expression _ he hw hsemicolon rfl hc) fun e' j he' => ?_
    refine settles_expect_bind rfl (by rw [hsemicolon]; rfl) (yieldsAt_pure ?_ rfl)
    simp [Stmt.unnumbered, he']

/-! ### Parameters -/

lemma yieldsAt_parameterList {names found : List Token} (hne : names ≠ []) (h : Names names ts)
    (hlen : found.length + names.length ≤ 255) (ht : t.kind = .symbol .rightParen)
    (hc : c.rest = ts ++ t :: rest) :
    YieldsAt (fun n => parameterList n found) c (t :: rest) (· = found.reverse ++ names) := by
  induction names generalizing found ts c with
  | nil => exact absurd rfl hne
  | cons name names ih =>
    obtain ⟨hall, hs⟩ := h
    obtain ⟨hname, hnames⟩ := List.forall_mem_cons.mp hall
    have hfound : found.length < maxArguments := by
      rw [List.length_cons] at hlen
      unfold maxArguments
      omega
    refine settles_succ ?_
    simp only [parameterList]
    refine settles_of_done (a := c.front) rfl (settles_require_bind (by simpa using hfound) ?_)
    cases names with
    | nil =>
      obtain ⟨_, rfl, rfl⟩ := spells_singleton.mp hs
      refine settles_expect_bind hc (by rw [hname]; rfl) ?_
      refine settles_not_accept_bind (by simp [ht, Kind.isSymbol]) (yieldsAt_pure ?_ rfl)
      simp
    | cons a names =>
      obtain ⟨_, us, rfl, hus, rfl⟩ := spells_cons.mp hs
      obtain ⟨comma, vs, hcomma, hvs, rfl⟩ := spells_cons.mp hus
      replace hcomma : comma.kind = .symbol .comma := hcomma
      refine settles_expect_bind hc (by rw [hname]; rfl) ?_
      refine settles_accept_bind rfl (by simp [hcomma, Kind.isSymbol]) ?_
      refine (ih (by simp) ⟨hnames, hvs⟩ ?_ rfl).mono ?_
      · simp at hlen ⊢; omega
      · rintro _ rfl
        simp

/-- A parameter list in parentheses, which may have no names in it. -/
lemma yieldsAt_parameters (rest : List Token) {sort : FunctionSort} {names : List Token}
    {opening closing : Token}
    (hopening : opening.kind = .symbol .leftParen) (h : Names names ts)
    (hclosing : closing.kind = .symbol .rightParen) (hlen : names.length ≤ 255)
    (hc : c.rest = opening :: (ts ++ closing :: rest)) :
    YieldsAt (fun n => parameters n sort) c rest (· = some names) := by
  have hnames : ∀ c : Cursor, c.rest = ts ++ closing :: rest →
      YieldsAt (fun n => unlessSees .rightParen [] (parameterList n [])) c (closing :: rest)
        (· = names) := by
    intro c hc
    obtain ⟨hall, hs⟩ := h
    cases names with
    | nil =>
      obtain rfl : ts = [] := spells_nil.mp hs
      rw [List.nil_append] at hc
      rw [← hc]
      exact yieldsAt_unlessSees hc hclosing rfl
    | cons name names =>
      have hhead : ∃ us, ts = name :: us := by
        cases names <;> obtain ⟨_, us, rfl, -, rfl⟩ := spells_cons.mp hs <;> exact ⟨us, rfl⟩
      obtain ⟨us, rfl⟩ := hhead
      refine settles_not_unlessSees hc ?_ ?_
      · rw [hall name (by simp)]; rfl
      · exact yieldsAt_parameterList (by simp) ⟨hall, hs⟩ (by simpa using hlen) hclosing hc
  refine settles_sees_bind hc ?_
  simp only [hopening, Kind.isSymbol, reduceCtorEq, decide_false, Bool.and_false]
  refine settles_expect_bind hc (by rw [hopening]; rfl) ?_
  refine settles_bind (hnames _ rfl) ?_
  rintro _ j rfl
  exact settles_expect_bind rfl (by rw [hclosing]; rfl) (yieldsAt_pure rfl rfl)

/-- A method whose body follows its name has no parameter list. -/
lemma yieldsAt_noParameters (ht : t.kind = .symbol .leftBrace) (hc : c.rest = t :: us) :
    YieldsAt (fun n => parameters n .method) c (t :: us) (· = none) := by
  refine settles_sees_bind hc ?_
  simp only [ht, Kind.isSymbol, decide_true, Bool.and_true, if_true]
  exact yieldsAt_pure rfl hc

/-! ### The heads of for loops -/

lemma yieldsAt_forFirst {first : Option Stmt} {b : Bool} (h : ForFirst first ts)
    (hs : ∀ s ∈ first, Admissible b s) (hc : c.rest = ts ++ rest) :
    YieldsAt forFirst c rest (·.map Stmt.unnumbered = first.map Stmt.unnumbered) := by
  cases h with
  | @var s ts h =>
    obtain ⟨var, us, rfl, hvar, h⟩ := yieldsAt_varDeclaration h (hs s rfl)
    refine settles_not_accept_bind (by simp [hc, hvar, Kind.isSymbol]) ?_
    refine settles_accept_bind hc (by rw [hvar]; rfl) (yieldsAt_map ?_)
    exact (h _ rest rfl).mono fun s' hs' => by simp [hs']
  | @expression s ts h =>
    obtain ⟨t, us, rfl, ht⟩ := h.begins
    refine settles_not_accept_bind ?_ (settles_not_accept_bind ?_ (yieldsAt_map ?_))
    · simpa [hc] using isSymbol_eq_false ht rfl
    · simpa [hc] using isKeyword_eq_false ht rfl
    · exact (yieldsAt_expressionStatement h (hs s rfl) hc).mono fun s' hs' => by simp [hs']
  | none hsemicolon =>
    exact settles_accept_bind hc (by rw [hsemicolon]; rfl) (yieldsAt_pure rfl rfl)

lemma yieldsAt_forHead (rest : List Token) {first : Option Stmt}
    {condition increment : Option Expr} {b : Bool} {opening semicolon closing : Token}
    {vs : List Token}
    (hopening : opening.kind = .symbol .leftParen) (hfirst : ForFirst first ts)
    (hcondition : OptExpression condition us) (hsemicolon : semicolon.kind = .symbol .semicolon)
    (hincrement : OptExpression increment vs) (hclosing : closing.kind = .symbol .rightParen)
    (hs : ∀ s ∈ first, Admissible b s) (hwc : ∀ e ∈ condition, e.widest ≤ 255)
    (hwi : ∀ e ∈ increment, e.widest ≤ 255)
    (hc : c.rest = opening :: (ts ++ (us ++ semicolon :: (vs ++ closing :: rest)))) :
    YieldsAt forHead c rest fun head =>
      head.first.map Stmt.unnumbered = first.map Stmt.unnumbered ∧
      head.condition.map Expr.unnumbered = condition.map Expr.unnumbered ∧
      head.increment.map Expr.unnumbered = increment.map Expr.unnumbered := by
  refine settles_expect_bind hc (by rw [hopening]; rfl) ?_
  refine settles_bind (yieldsAt_forFirst hfirst hs rfl) fun first' i hfirst' => ?_
  refine settles_bind (yieldsAt_optExpression _ hcondition hwc hsemicolon rfl rfl rfl) ?_
  intro condition' j hcondition'
  refine settles_expect_bind rfl (by rw [hsemicolon]; rfl) ?_
  refine settles_bind (yieldsAt_optExpression _ hincrement hwi hclosing rfl rfl rfl) ?_
  intro increment' k hincrement'
  refine settles_expect_bind rfl (by rw [hclosing]; rfl) (yieldsAt_pure ?_ rfl)
  exact ⟨hfirst', hcondition', hincrement'⟩

/-! ### Up to a part

What a rule comes to is what it comes to from the part on, once it has read what stands in front of
that part. -/

section
variable {b : Bool} {e : Expr} {word name opening closing : Token}

lemma yieldsAt_declaration {x : Stmt}
    (h : YieldsAt (fun n => bareDeclaration n b) c rest (·.unnumbered = x)) :
    YieldsAt (fun n => declaration n b) c rest (·.map Stmt.unnumbered = some x) := by
  refine settles_succ ?_
  simp only [declaration_succ]
  exact yieldsAt_recovering h

lemma settles_class_bare {S : Outcome Stmt → Prop} (hword : word.kind = .keyword .kwClass)
    (hc : c.rest = word :: us) (h : Settles classDeclaration { c with rest := us } S) :
    Settles (fun n => bareDeclaration n b) c S := by
  simp only [bareDeclaration]
  refine settles_peek_bind hc ?_
  simp only [hword]
  exact settles_advance_bind hc h

lemma settles_function_bare {S : Outcome Stmt → Prop} (hword : word.kind = .keyword .kwFun)
    (hc : c.rest = word :: us)
    (h : Settles (fun n => .function <$> function n .function) { c with rest := us } S) :
    Settles (fun n => bareDeclaration n b) c S := by
  simp only [bareDeclaration]
  refine settles_peek_bind hc ?_
  simp only [hword]
  exact settles_advance_bind hc h

lemma settles_var_bare {S : Outcome Stmt → Prop} (hword : word.kind = .keyword .kwVar)
    (hc : c.rest = word :: us) (h : Settles varDeclaration { c with rest := us } S) :
    Settles (fun n => bareDeclaration n b) c S := by
  simp only [bareDeclaration]
  refine settles_peek_bind hc ?_
  simp only [hword]
  exact settles_advance_bind hc h

lemma settles_statement_bare {S : Outcome Stmt → Prop}
    (ht : Nonterminal.statement.starts t.kind) (hc : c.rest = t :: us)
    (h : Settles (fun n => statement n b) c S) : Settles (fun n => bareDeclaration n b) c S := by
  simp only [bareDeclaration]
  refine settles_peek_bind hc ?_
  split
  · simp_all [Nonterminal.starts, Kind.isKeyword]
  · simp_all [Nonterminal.starts, Kind.isKeyword]
  · simp_all [Nonterminal.starts, Kind.isKeyword]
  · exact h

/-- A block goes on with a declaration, unless a brace closes it. -/
lemma settles_block_next {S : Outcome (List Stmt) → Prop} {found : List Stmt}
    (ht : t.kind.isSymbol .rightBrace = false) (hc : c.rest = t :: us)
    (h : Settles (fun n => declaration n b >>= fun s => block n b (s.toList ++ found)) c S) :
    Settles (fun n => block n b found) c S := by
  refine settles_succ ?_
  simp only [block]
  refine settles_atEnd_bind (settles_sees_bind hc ?_)
  simpa only [hc, ht, List.isEmpty_cons, Bool.or_self, Bool.false_eq_true, if_false] using h

lemma settles_declarations_next {S : Outcome (List Stmt) → Prop} {found : List Stmt}
    (hc : c.rest = t :: us)
    (h : Settles (fun n => declaration n false >>= fun s => declarations n (s.toList ++ found))
      c S) :
    Settles (fun n => declarations n found) c S := by
  refine settles_succ ?_
  simp only [declarations]
  refine settles_atEnd_bind ?_
  simpa only [hc, List.isEmpty_cons, Bool.false_eq_true, if_false] using h

lemma settles_classDeclaration {S : Outcome Stmt → Prop} (hname : name.kind = .identifier)
    (hopening : opening.kind = .symbol .leftBrace) (hc : c.rest = name :: opening :: us)
    (h : Settles (fun n => do
      let (methods, statics) ← members n [] []
      let _ ← expectSymbol .rightBrace .afterClassBody
      pure (.classDecl name methods statics)) { c with rest := us } S) :
    Settles classDeclaration c S := by
  refine settles_succ ?_
  simp only [classDeclaration]
  refine settles_expect_bind hc (by rw [hname]; rfl) ?_
  exact settles_expect_bind rfl (by rw [hopening]; rfl) h

lemma settles_instanceMethod {S : Outcome (List FunctionDecl × List FunctionDecl) → Prop}
    {ms ss : List FunctionDecl} (ht : t.kind.isIdentifier) (hc : c.rest = t :: us)
    (h : Settles (fun n => function n .method >>= fun m => members n (m :: ms) ss) c S) :
    Settles (fun n => members n ms ss) c S := by
  refine settles_succ ?_
  simp only [members]
  refine settles_atEnd_bind (settles_sees_bind hc ?_)
  simp only [hc, isSymbol_eq_false (s := .rightBrace) ht rfl, List.isEmpty_cons, Bool.or_self,
    Bool.false_eq_true, if_false]
  exact settles_not_accept_bind (by simpa [hc] using isKeyword_eq_false ht rfl) h

lemma settles_staticMethod {S : Outcome (List FunctionDecl × List FunctionDecl) → Prop}
    {ms ss : List FunctionDecl} (hword : word.kind = .keyword .kwClass) (hc : c.rest = word :: us)
    (h : Settles (fun n => function n .method >>= fun m => members n ms (m :: ss))
      { c with rest := us } S) :
    Settles (fun n => members n ms ss) c S := by
  refine settles_succ ?_
  simp only [members]
  refine settles_atEnd_bind (settles_sees_bind hc ?_)
  simp only [hc, hword, Kind.isSymbol, List.isEmpty_cons, Bool.or_self, Bool.false_eq_true,
    if_false]
  exact settles_accept_bind hc (by rw [hword]; rfl) h

lemma settles_function {S : Outcome FunctionDecl → Prop} {sort : FunctionSort}
    {params : List Token} {brace : Token} (us : List Token) (hname : name.kind = .identifier)
    (hopening : opening.kind = .symbol .leftParen) (hparams : Names params ts)
    (hclosing : closing.kind = .symbol .rightParen) (hlen : params.length ≤ 255)
    (hbrace : brace.kind = .symbol .leftBrace)
    (hc : c.rest = name :: opening :: (ts ++ closing :: brace :: us))
    (h : ∀ j, Settles (fun n => FunctionDecl.mk name (some params) <$> block n false [])
      { c with rest := us, nextId := j } S) :
    Settles (fun n => function n sort) c S := by
  refine settles_succ ?_
  simp only [function]
  refine settles_expect_bind hc (by rw [hname]; rfl) ?_
  refine settles_bind (yieldsAt_parameters (brace :: us) hopening hparams hclosing hlen rfl) ?_
  rintro _ j rfl
  exact settles_expect_bind rfl (by rw [hbrace]; rfl) (h j)

lemma settles_getter {S : Outcome FunctionDecl → Prop} {brace : Token} (us : List Token)
    (hname : name.kind = .identifier) (hbrace : brace.kind = .symbol .leftBrace)
    (hc : c.rest = name :: brace :: us)
    (h : ∀ j, Settles (fun n => FunctionDecl.mk name none <$> block n false [])
      { c with rest := us, nextId := j } S) :
    Settles (fun n => function n .method) c S := by
  refine settles_succ ?_
  simp only [function]
  refine settles_expect_bind hc (by rw [hname]; rfl) ?_
  refine settles_bind (yieldsAt_noParameters hbrace rfl) ?_
  rintro _ j rfl
  exact settles_expect_bind rfl (by rw [hbrace]; rfl) (h j)

lemma settles_expressionStatement {S : Outcome Stmt → Prop} (ht : begins t.kind)
    (hc : c.rest = t :: us) (h : Settles expressionStatement c S) :
    Settles (fun n => statement n b) c S := by
  refine settles_succ ?_
  simp only [statement]
  refine settles_peek_bind hc ?_
  split
  case h_8 => exact h
  all_goals simp_all [begins]

lemma settles_printStatement {S : Outcome Stmt → Prop} (hword : word.kind = .keyword .kwPrint)
    (hc : c.rest = word :: us) (h : Settles printStatement { c with rest := us } S) :
    Settles (fun n => statement n b) c S := by
  refine settles_succ ?_
  simp only [statement]
  refine settles_peek_bind hc ?_
  simp only [hword]
  exact settles_advance_bind hc h

lemma settles_breakStatement {S : Outcome Stmt → Prop} (hword : word.kind = .keyword .kwBreak)
    (hc : c.rest = word :: us)
    (h : Settles (fun _ => breakStatement b word) { c with rest := us } S) :
    Settles (fun n => statement n b) c S := by
  refine settles_succ ?_
  simp only [statement]
  refine settles_peek_bind hc ?_
  simp only [hword]
  exact settles_advance_bind hc h

lemma settles_returnStatement {S : Outcome Stmt → Prop} (hword : word.kind = .keyword .kwReturn)
    (hc : c.rest = word :: us)
    (h : Settles (fun n => returnStatement n word) { c with rest := us } S) :
    Settles (fun n => statement n b) c S := by
  refine settles_succ ?_
  simp only [statement]
  refine settles_peek_bind hc ?_
  simp only [hword]
  exact settles_advance_bind hc h

lemma settles_blockStatement {S : Outcome Stmt → Prop}
    (hopening : opening.kind = .symbol .leftBrace) (hc : c.rest = opening :: us)
    (h : Settles (fun n => .block <$> block n b []) { c with rest := us } S) :
    Settles (fun n => statement n b) c S := by
  refine settles_succ ?_
  simp only [statement]
  refine settles_peek_bind hc ?_
  simp only [hopening]
  exact settles_advance_bind hc h

lemma settles_whileStatement {S : Outcome Stmt → Prop} (us : List Token)
    (hword : word.kind = .keyword .kwWhile) (hopening : opening.kind = .symbol .leftParen)
    (he : Expression e ts) (hw : e.widest ≤ 255)
    (hclosing : closing.kind = .symbol .rightParen)
    (hc : c.rest = word :: opening :: (ts ++ closing :: us))
    (h : ∀ e' j, e'.unnumbered = e.unnumbered →
      Settles (fun n => .loop e' <$> statement n true) { c with rest := us, nextId := j } S) :
    Settles (fun n => statement n b) c S := by
  refine settles_succ ?_
  simp only [statement]
  refine settles_peek_bind hc ?_
  simp only [hword]
  refine settles_advance_bind hc ?_
  refine settles_expect_bind rfl (by rw [hopening]; rfl) ?_
  refine settles_bind (yieldsAt_expression us he hw hclosing rfl rfl) fun e' j he' => ?_
  exact settles_expect_bind rfl (by rw [hclosing]; rfl) (h e' j he')

/-- What comes after the first branch of a conditional statement. -/
def elseBranch (n : ℕ) (b : Bool) (e : Expr) (whenTrue : Stmt) : Rule Stmt := do
  match ← acceptKeyword .kwElse with
  | some _ => (.branch e whenTrue ∘ some) <$> statement n b
  | none => pure (.branch e whenTrue none)

lemma settles_elseBranch {S : Outcome Stmt → Prop} {s : Stmt} (hword : word.kind = .keyword .kwElse)
    (hc : c.rest = word :: us)
    (h : Settles (fun n => (.branch e s ∘ some) <$> statement n b) { c with rest := us } S) :
    Settles (fun n => elseBranch n b e s) c S :=
  settles_accept_bind hc (by rw [hword]; rfl) h

lemma yieldsAt_noElseBranch {s : Stmt} (helse : NoElse c.rest) :
    YieldsAt (fun n => elseBranch n b e s) c c.rest (· = .branch e s none) :=
  settles_not_accept_bind helse (yieldsAt_pure rfl rfl)

lemma settles_ifStatement {S : Outcome Stmt → Prop} (us : List Token)
    (hword : word.kind = .keyword .kwIf) (hopening : opening.kind = .symbol .leftParen)
    (he : Expression e ts) (hw : e.widest ≤ 255)
    (hclosing : closing.kind = .symbol .rightParen)
    (hc : c.rest = word :: opening :: (ts ++ closing :: us))
    (h : ∀ e' j, e'.unnumbered = e.unnumbered →
      Settles (fun n => statement n b >>= elseBranch n b e')
        { c with rest := us, nextId := j } S) :
    Settles (fun n => statement n b) c S := by
  refine settles_succ ?_
  simp only [statement]
  refine settles_peek_bind hc ?_
  simp only [hword]
  refine settles_advance_bind hc ?_
  refine settles_expect_bind rfl (by rw [hopening]; rfl) ?_
  refine settles_bind (yieldsAt_expression us he hw hclosing rfl rfl) fun e' j he' => ?_
  exact settles_expect_bind rfl (by rw [hclosing]; rfl) (h e' j he')

lemma settles_forStatement {S : Outcome Stmt → Prop} {first : Option Stmt}
    {condition increment : Option Expr} {vs : List Token} {semicolon : Token} (ws : List Token)
    (hword : word.kind = .keyword .kwFor) (hopening : opening.kind = .symbol .leftParen)
    (hfirst : ForFirst first ts) (hcondition : OptExpression condition us)
    (hsemicolon : semicolon.kind = .symbol .semicolon) (hincrement : OptExpression increment vs)
    (hclosing : closing.kind = .symbol .rightParen) (hs : ∀ s ∈ first, Admissible b s)
    (hwc : ∀ e ∈ condition, e.widest ≤ 255) (hwi : ∀ e ∈ increment, e.widest ≤ 255)
    (hc : c.rest = word :: opening :: (ts ++ (us ++ semicolon :: (vs ++ closing :: ws))))
    (h : ∀ (head : ForHead) j, head.first.map Stmt.unnumbered = first.map Stmt.unnumbered ∧
        head.condition.map Expr.unnumbered = condition.map Expr.unnumbered ∧
        head.increment.map Expr.unnumbered = increment.map Expr.unnumbered →
      Settles (fun n => head.loop <$> statement n true) { c with rest := ws, nextId := j } S) :
    Settles (fun n => statement n b) c S := by
  refine settles_succ ?_
  simp only [statement]
  refine settles_peek_bind hc ?_
  simp only [hword]
  refine settles_advance_bind hc ?_
  exact settles_bind (yieldsAt_forHead ws hopening hfirst hcondition hsemicolon hincrement
    hclosing hs hwc hwi rfl) h

end

/-! ### All declarations and statements -/

/-- The rules for a nonterminal read the tokens as the tree. -/
def Covered : (q : Nonterminal) → q.Tree → Bool → List Token → Prop
  | .statement, s, o, ts => ∀ b, Admissible b s → ∀ c rest, c.rest = ts ++ rest →
      (o = true → NoElse rest) →
      YieldsAt (fun n => statement n b) c rest (·.unnumbered = s.unnumbered)
  | .declaration, s, o, ts => ∀ b, Admissible b s → ∀ c rest, c.rest = ts ++ rest →
      (o = true → NoElse rest) →
      YieldsAt (fun n => declaration n b) c rest
        (·.map Stmt.unnumbered = some s.unnumbered)
  | .declarations, body, _, ts =>
      (∀ b, (∀ s ∈ body, Admissible b s) → ∀ found c closing rest,
        closing.kind = .symbol .rightBrace → c.rest = ts ++ closing :: rest →
        YieldsAt (fun n => block n b found) c rest
          (Stmt.unnumberedEach · = Stmt.unnumberedEach (found.reverse ++ body))) ∧
      ((∀ s ∈ body, Admissible false s) → ∀ found c, c.rest = ts →
        YieldsAt (fun n => declarations n found) c []
          (Stmt.unnumberedEach · = Stmt.unnumberedEach (found.reverse ++ body)))
  | .function sort, d, _, ts => AdmissibleDecl d → ∀ c rest, c.rest = ts ++ rest →
      YieldsAt (fun n => function n sort) c rest
        (Stmt.unnumberedDecl · = Stmt.unnumberedDecl d)
  | .members, (methods, statics), _, ts =>
      (∀ m ∈ methods, AdmissibleDecl m) → (∀ m ∈ statics, AdmissibleDecl m) →
      ∀ ms ss c closing rest, closing.kind = .symbol .rightBrace →
        c.rest = ts ++ closing :: rest →
        YieldsAt (fun n => members n ms ss) c (closing :: rest) fun r =>
          Stmt.unnumberedDecls r.1 = Stmt.unnumberedDecls (ms.reverse ++ methods) ∧
            Stmt.unnumberedDecls r.2 = Stmt.unnumberedDecls (ss.reverse ++ statics)

/-- What follows a declaration in a block or at the top level is no `else`. -/
lemma noElse_of_declarations {strict o : Bool} {body : List Stmt}
    (h : Derives strict .declarations body o ts) (hrest : NoElse rest) : NoElse (ts ++ rest) := by
  cases h with
  | nil => exact hrest
  | cons h _ =>
    obtain ⟨t, us, rfl, ht⟩ := h.starts_of_declaration
    simpa [NoElse] using isKeyword_eq_false ht rfl

lemma noElse_of_symbol {s : Symbol} (ht : t.kind = .symbol s) : NoElse (t :: rest) := by
  simp [NoElse, ht, Kind.isKeyword]

section
variable {s s' : Stmt} {o o' : Bool} {body : List Stmt} {e : Expr} {vs : List Token}
  {word word' opening closing semicolon name : Token}

lemma covered_nil : Covered .declarations [] false [] := by
  constructor
  · intro b _ found c closing rest hclosing hc
    refine settles_succ ?_
    simp only [block]
    refine settles_atEnd_bind (settles_sees_bind hc ?_)
    simp only [hclosing, Kind.isSymbol, decide_true, Bool.or_true, if_true]
    refine settles_expect_bind hc (by rw [hclosing]; rfl) (yieldsAt_pure ?_ rfl)
    rw [List.append_nil]
  · intro _ found c hc
    refine settles_succ ?_
    simp only [declarations]
    refine settles_atEnd_bind ?_
    simp only [hc, List.isEmpty_nil, if_true]
    exact yieldsAt_pure (by rw [List.append_nil]) hc

lemma covered_cons (h : Derives true .declaration s o ts)
    (hs : Derives true .declarations body false us) (ih : Covered .declaration s o ts)
    (ihs : Covered .declarations body false us) :
    Covered .declarations (s :: body) false (ts ++ us) := by
  obtain ⟨t, ts, rfl, ht⟩ := h.starts_of_declaration
  have append : ∀ {found : List Stmt} {r : Option Stmt} {body' : List Stmt},
      r.map Stmt.unnumbered = some s.unnumbered →
      Stmt.unnumberedEach body' = Stmt.unnumberedEach ((r.toList ++ found).reverse ++ body) →
      Stmt.unnumberedEach body' = Stmt.unnumberedEach (found.reverse ++ s :: body) := by
    intro found r body' hr hbody'
    obtain ⟨s', rfl, hs'⟩ := Option.map_eq_some_iff.mp hr
    rw [hbody']
    simp [Stmt.unnumberedEach_append, Stmt.unnumberedEach, hs']
  constructor
  · intro b hb found c closing rest hclosing hc
    obtain ⟨hb, hbs⟩ := List.forall_mem_cons.mp hb
    refine settles_block_next (isSymbol_eq_false ht rfl) hc ?_
    refine settles_bind (ih b hb c (us ++ closing :: rest) (by simp [hc]) fun _ => ?_) ?_
    · exact noElse_of_declarations hs (noElse_of_symbol hclosing)
    · intro r j hr
      exact (ihs.1 b hbs _ _ closing rest hclosing rfl).mono fun body' => append hr
  · intro hb found c hc
    obtain ⟨hb, hbs⟩ := List.forall_mem_cons.mp hb
    refine settles_declarations_next hc ?_
    refine settles_bind (ih false hb c us (by simp [hc]) fun _ => ?_) fun r j hr => ?_
    · simpa using noElse_of_declarations hs (show NoElse [] by simp [NoElse])
    · exact (ihs.2 hbs _ _ rfl).mono fun body' => append hr

lemma covered_classDecl {methods statics : List FunctionDecl}
    (hword : word.kind = .keyword .kwClass) (hname : name.kind = .identifier)
    (hopening : opening.kind = .symbol .leftBrace) (hclosing : closing.kind = .symbol .rightBrace)
    (ih : Covered .members (methods, statics) false ts) :
    Covered .declaration (.classDecl name methods statics) false
      (word :: name :: opening :: (ts ++ [closing])) := by
  intro b hs c rest hc _
  obtain ⟨hms, hss⟩ := admissible_classDecl.mp hs
  refine yieldsAt_declaration (settles_class_bare hword hc ?_)
  refine settles_classDeclaration hname hopening rfl ?_
  refine settles_bind (ih hms hss [] [] _ closing rest hclosing (by simp)) fun r j hr => ?_
  refine settles_expect_bind rfl (by rw [hclosing]; rfl) (yieldsAt_pure ?_ rfl)
  simp only [Stmt.unnumbered, hr.1, hr.2, List.reverse_nil, List.nil_append]

lemma covered_funDecl {d : FunctionDecl} (hword : word.kind = .keyword .kwFun)
    (ih : Covered (.function .function) d false ts) :
    Covered .declaration (.function d) false (word :: ts) := by
  intro b hs c rest hc _
  refine yieldsAt_declaration (settles_function_bare hword hc (yieldsAt_map ?_))
  exact (ih (admissible_function.mp hs) _ rest rfl).mono fun d' hd' => by
    simp only [Stmt.unnumbered, hd']

lemma covered_varDecl (h : VarDecl s ts) : Covered .declaration s false ts := by
  intro b hs c rest hc _
  obtain ⟨var, us, rfl, hvar, h⟩ := yieldsAt_varDeclaration h hs
  exact yieldsAt_declaration (settles_var_bare hvar hc (h _ rest rfl))

lemma covered_ofStatement (h : Derives true .statement s o ts) (ih : Covered .statement s o ts) :
    Covered .declaration s o ts := by
  intro b hs c rest hc ho
  obtain ⟨t, us, rfl, ht⟩ := h.starts_of_statement
  exact yieldsAt_declaration (settles_statement_bare ht hc (ih b hs c rest hc ho))

lemma covered_noMembers : Covered .members ([], []) false [] := by
  intro _ _ ms ss c closing rest hclosing hc
  refine settles_succ ?_
  simp only [members]
  refine settles_atEnd_bind (settles_sees_bind hc ?_)
  simp only [hclosing, Kind.isSymbol, decide_true, Bool.or_true, if_true]
  exact yieldsAt_pure (by simp) hc

lemma covered_instanceMethod {m : FunctionDecl} {methods statics : List FunctionDecl}
    (h : Derives true (.function .method) m false ts)
    (ih : Covered (.function .method) m false ts)
    (ihs : Covered .members (methods, statics) false us) :
    Covered .members (m :: methods, statics) false (ts ++ us) := by
  intro hms hss ms ss c closing rest hclosing hc
  obtain ⟨hm, hms⟩ := List.forall_mem_cons.mp hms
  obtain ⟨t, ts, rfl, ht⟩ := h.starts_of_function
  refine settles_instanceMethod ht hc ?_
  refine settles_bind (ih hm c (us ++ closing :: rest) (by simp [hc])) fun m' j hm' => ?_
  refine (ihs hms hss _ ss _ closing rest hclosing rfl).mono fun r hr => ⟨?_, hr.2⟩
  rw [hr.1]
  simp [Stmt.unnumberedDecls_append, Stmt.unnumberedDecls, hm']

lemma covered_staticMethod {m : FunctionDecl} {methods statics : List FunctionDecl}
    (hword : word.kind = .keyword .kwClass) (ih : Covered (.function .method) m false ts)
    (ihs : Covered .members (methods, statics) false us) :
    Covered .members (methods, m :: statics) false (word :: (ts ++ us)) := by
  intro hms hss ms ss c closing rest hclosing hc
  obtain ⟨hm, hss⟩ := List.forall_mem_cons.mp hss
  refine settles_staticMethod hword hc ?_
  refine settles_bind (ih hm _ (us ++ closing :: rest) (by simp)) fun m' j hm' => ?_
  refine (ihs hms hss ms _ _ closing rest hclosing rfl).mono fun r hr => ⟨hr.1, ?_⟩
  rw [hr.2]
  simp [Stmt.unnumberedDecls_append, Stmt.unnumberedDecls, hm']

lemma covered_function {sort : FunctionSort} {params : List Token} {brace brace' : Token}
    (hname : name.kind = .identifier) (hopening : opening.kind = .symbol .leftParen)
    (hparams : Names params ts) (hclosing : closing.kind = .symbol .rightParen)
    (hbrace : brace.kind = .symbol .leftBrace) (hbrace' : brace'.kind = .symbol .rightBrace)
    (ih : Covered .declarations body false us) :
    Covered (.function sort) (.mk name (some params) body) false
      (name :: opening :: (ts ++ closing :: brace :: (us ++ [brace']))) := by
  intro hd c rest hc
  refine settles_function (us ++ brace' :: rest) hname hopening hparams hclosing
    (hd.1 _ rfl) hbrace (by simp [hc]) fun j => yieldsAt_map ?_
  refine (ih.1 false hd.2 [] _ brace' rest hbrace' rfl).mono fun body' hbody => ?_
  simp only [Stmt.unnumberedDecl, hbody, List.reverse_nil, List.nil_append]

lemma covered_getter {brace brace' : Token} (hname : name.kind = .identifier)
    (hbrace : brace.kind = .symbol .leftBrace) (hbrace' : brace'.kind = .symbol .rightBrace)
    (ih : Covered .declarations body false us) :
    Covered (.function .method) (.mk name none body) false
      (name :: brace :: (us ++ [brace'])) := by
  intro hd c rest hc
  refine settles_getter (us ++ brace' :: rest) hname hbrace (by simp [hc])
    fun j => yieldsAt_map ?_
  refine (ih.1 false hd.2 [] _ brace' rest hbrace' rfl).mono fun body' hbody => ?_
  simp only [Stmt.unnumberedDecl, hbody, List.reverse_nil, List.nil_append]

lemma covered_exprStmt (h : ExprStmt s ts) : Covered .statement s false ts := by
  intro b hs c rest hc _
  have hexpression := yieldsAt_expressionStatement h hs hc
  obtain ⟨t, us, rfl, ht⟩ := h.begins
  exact settles_expressionStatement ht hc hexpression

lemma covered_printStmt (hword : word.kind = .keyword .kwPrint) (he : Expression e ts)
    (hsemicolon : semicolon.kind = .symbol .semicolon) :
    Covered .statement (.print e) false (word :: (ts ++ [semicolon])) := by
  intro b hs c rest hc _
  obtain hw : e.widest ≤ 255 := by cases hs with | print h => exact h
  refine settles_printStatement hword hc ?_
  refine settles_bind (yieldsAt_expression rest he hw hsemicolon rfl (by simp)) fun e' j he' => ?_
  refine settles_expect_bind rfl (by rw [hsemicolon]; rfl) (yieldsAt_pure ?_ rfl)
  simp only [Stmt.unnumbered, he']

lemma covered_breakStmt (hword : word.kind = .keyword .kwBreak)
    (hsemicolon : semicolon.kind = .symbol .semicolon) :
    Covered .statement (.breakLoop word) false [word, semicolon] := by
  intro b hs c rest hc _
  cases hs
  refine settles_breakStatement hword hc (settles_require_bind rfl ?_)
  exact settles_expect_bind rfl (by rw [hsemicolon]; rfl) (yieldsAt_pure rfl rfl)

lemma covered_returnStmt {value : Option Expr} (hword : word.kind = .keyword .kwReturn)
    (hvalue : OptExpression value ts) (hsemicolon : semicolon.kind = .symbol .semicolon) :
    Covered .statement (.returnFrom word value) false (word :: (ts ++ [semicolon])) := by
  intro b hs c rest hc _
  obtain hw : ∀ e ∈ value, e.widest ≤ 255 := by cases hs with | returnFrom h => exact h
  refine settles_returnStatement hword hc ?_
  refine settles_bind (yieldsAt_optExpression rest hvalue hw hsemicolon rfl rfl (by simp)) ?_
  intro value' j hvalue'
  refine settles_expect_bind rfl (by rw [hsemicolon]; rfl) (yieldsAt_pure ?_ rfl)
  simp only [Stmt.unnumbered, hvalue']

lemma covered_block (hopening : opening.kind = .symbol .leftBrace)
    (hclosing : closing.kind = .symbol .rightBrace) (ih : Covered .declarations body false ts) :
    Covered .statement (.block body) false (opening :: (ts ++ [closing])) := by
  intro b hs c rest hc _
  refine settles_blockStatement hopening hc (yieldsAt_map ?_)
  refine (ih.1 b (admissible_block.mp hs) [] _ closing rest hclosing (by simp)).mono ?_
  intro body' hbody
  simp only [Stmt.unnumbered, hbody, List.reverse_nil, List.nil_append]

lemma covered_whileStmt (hword : word.kind = .keyword .kwWhile)
    (hopening : opening.kind = .symbol .leftParen) (he : Expression e ts)
    (hclosing : closing.kind = .symbol .rightParen) (ih : Covered .statement s o us) :
    Covered .statement (.loop e s) o (word :: opening :: (ts ++ closing :: us)) := by
  intro b hs c rest hc ho
  obtain ⟨hw, hs⟩ := admissible_loop.mp hs
  refine settles_whileStatement (us ++ rest) hword hopening he hw hclosing (by simp [hc])
    fun e' j he' => yieldsAt_map ?_
  refine (ih true hs _ rest rfl ho).mono fun s' hs' => ?_
  simp only [Stmt.unnumbered, he', hs']

lemma covered_ifStmt (hword : word.kind = .keyword .kwIf)
    (hopening : opening.kind = .symbol .leftParen) (he : Expression e ts)
    (hclosing : closing.kind = .symbol .rightParen) (ih : Covered .statement s o us) :
    Covered .statement (.branch e s none) true (word :: opening :: (ts ++ closing :: us)) := by
  intro b hs c rest hc ho
  obtain ⟨hw, hs, -⟩ := admissible_branch.mp hs
  refine settles_ifStatement (us ++ rest) hword hopening he hw hclosing (by simp [hc])
    fun e' j he' => ?_
  refine settles_bind (ih b hs _ rest rfl fun _ => ho rfl) fun s' j hs' => ?_
  refine (yieldsAt_noElseBranch (ho rfl)).mono ?_
  rintro _ rfl
  simp only [Stmt.unnumbered, he', hs']

lemma covered_ifElse (hword : word.kind = .keyword .kwIf)
    (hopening : opening.kind = .symbol .leftParen) (he : Expression e ts)
    (hclosing : closing.kind = .symbol .rightParen) (hword' : word'.kind = .keyword .kwElse)
    (ih : Covered .statement s false us) (ih' : Covered .statement s' o vs) :
    Covered .statement (.branch e s (some s')) o
      (word :: opening :: (ts ++ closing :: (us ++ word' :: vs))) := by
  intro b hs c rest hc ho
  obtain ⟨hw, hs, hs'⟩ := admissible_branch.mp hs
  refine settles_ifStatement (us ++ word' :: (vs ++ rest)) hword hopening he hw hclosing
    (by simp [hc]) fun e' j he' => ?_
  refine settles_bind (ih b hs _ (word' :: (vs ++ rest)) rfl nofun) fun r j hr => ?_
  refine settles_elseBranch hword' rfl (yieldsAt_map ?_)
  refine (ih' b (hs' s' rfl) _ rest rfl ho).mono fun r' hr' => ?_
  simp only [Function.comp, Stmt.unnumbered, he', hr, hr']

lemma covered_forStmt {first : Option Stmt} {condition increment : Option Expr}
    {ws : List Token} (hword : word.kind = .keyword .kwFor)
    (hopening : opening.kind = .symbol .leftParen) (hfirst : ForFirst first ts)
    (hcondition : OptExpression condition us) (hsemicolon : semicolon.kind = .symbol .semicolon)
    (hincrement : OptExpression increment vs) (hclosing : closing.kind = .symbol .rightParen)
    (ih : Covered .statement s o ws) :
    Covered .statement (forLoop first condition increment s) o
      (word :: opening :: (ts ++ (us ++ semicolon :: (vs ++ closing :: ws)))) := by
  intro b hs c rest hc ho
  obtain ⟨hf, hwc, hwi, hs⟩ := admissible_forLoop.mp hs
  refine settles_forStatement (ws ++ rest) hword hopening hfirst hcondition hsemicolon
    hincrement hclosing hf hwc hwi (by simp [hc]) fun head j hhead => yieldsAt_map ?_
  refine (ih true hs _ rest rfl ho).mono fun s' hs' => ?_
  rw [ForHead.loop_eq, unnumbered_forLoop, unnumbered_forLoop, hhead.1, hhead.2.1, hhead.2.2, hs']

end

lemma Derives.covered {q : Nonterminal} {x : q.Tree} {o : Bool} {ts : List Token}
    (h : Derives true q x o ts) : Covered q x o ts := by
  induction h with
  | nil => exact covered_nil
  | cons h hs ih ihs => exact covered_cons h hs ih ihs
  | classDecl hword hname hopening _ hclosing ih =>
    exact covered_classDecl hword hname hopening hclosing ih
  | funDecl hword _ ih => exact covered_funDecl hword ih
  | varDecl h => exact covered_varDecl h
  | ofStatement h ih => exact covered_ofStatement h ih
  | noMembers => exact covered_noMembers
  | instanceMethod h _ ih ihs => exact covered_instanceMethod h ih ihs
  | staticMethod hword _ _ ih ihs => exact covered_staticMethod hword ih ihs
  | function hname hopening hnames hclosing hbrace _ hbrace' ih =>
    exact covered_function hname hopening hnames hclosing hbrace hbrace' ih
  | getter hname hbrace _ hbrace' ih => exact covered_getter hname hbrace hbrace' ih
  | exprStmt h => exact covered_exprStmt h
  | printStmt hword he hsemicolon => exact covered_printStmt hword he hsemicolon
  | ifStmt hword hopening he hclosing _ ih => exact covered_ifStmt hword hopening he hclosing ih
  | ifElse hword hopening he hclosing _ ho hword' _ ih ih' =>
    obtain rfl := ho rfl
    exact covered_ifElse hword hopening he hclosing hword' ih ih'
  | whileStmt hword hopening he hclosing _ ih =>
    exact covered_whileStmt hword hopening he hclosing ih
  | forStmt hword hopening hfirst hcondition hsemicolon hincrement hclosing _ ih =>
    exact covered_forStmt hword hopening hfirst hcondition hsemicolon hincrement hclosing ih
  | breakStmt hword hsemicolon => exact covered_breakStmt hword hsemicolon
  | returnStmt hword hvalue hsemicolon => exact covered_returnStmt hword hvalue hsemicolon
  | block hopening _ hclosing ih => exact covered_block hopening hclosing ih

end Lox.Grammar
