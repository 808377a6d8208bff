import Lox.Grammar.Statement
import Lox.Proofs.Grammar.Precedence

/-!
Derivations of the grammar of declarations and statements.

A derivation relates a tree to the tokens it derives from. The grammar is ambiguous: after an `if`
within an `if` the word `else` may belong to either. So a derivation also says whether it is open,
that is, whether it ends with an `if` that an `else` after it could belong to, and a strict
derivation has no open statement before an `else`.
-/

namespace Lox

/-! ### Numbers in statements -/

namespace Stmt

mutual

/-- The statement with the numbers in its expressions forgotten. -/
def unnumbered : Stmt → Stmt
  | expression e => expression e.unnumbered
  | print e => print e.unnumbered
  | declare name initial => declare name (initial.map Expr.unnumbered)
  | block body => block (unnumberedEach body)
  | branch c t none => branch c.unnumbered t.unnumbered none
  | branch c t (some e) => branch c.unnumbered t.unnumbered (some e.unnumbered)
  | loop c body => loop c.unnumbered body.unnumbered
  | breakLoop keyword => breakLoop keyword
  | function d => function (unnumberedDecl d)
  | returnFrom keyword value => returnFrom keyword (value.map Expr.unnumbered)
  | classDecl name methods statics =>
    classDecl name (unnumberedDecls methods) (unnumberedDecls statics)

def unnumberedEach : List Stmt → List Stmt
  | [] => []
  | s :: ss => s.unnumbered :: unnumberedEach ss

def unnumberedDecl : FunctionDecl → FunctionDecl
  | .mk name params body => .mk name params (unnumberedEach body)

def unnumberedDecls : List FunctionDecl → List FunctionDecl
  | [] => []
  | d :: ds => unnumberedDecl d :: unnumberedDecls ds

end

mutual

/-- The numbers in the expressions of a statement. -/
def ids : Stmt → List NodeId
  | expression e => e.ids
  | print e => e.ids
  | declare _ initial => initial.elim [] Expr.ids
  | block body => idsOf body
  | branch c t none => c.ids ++ t.ids
  | branch c t (some e) => c.ids ++ (t.ids ++ e.ids)
  | loop c body => c.ids ++ body.ids
  | breakLoop _ => []
  | function d => idsOfDecl d
  | returnFrom _ value => value.elim [] Expr.ids
  | classDecl _ methods statics => idsOfDecls methods ++ idsOfDecls statics

def idsOf : List Stmt → List NodeId
  | [] => []
  | s :: ss => s.ids ++ idsOf ss

def idsOfDecl : FunctionDecl → List NodeId
  | .mk _ _ body => idsOf body

def idsOfDecls : List FunctionDecl → List NodeId
  | [] => []
  | d :: ds => idsOfDecl d ++ idsOfDecls ds

end

end Stmt

namespace Stmt

lemma unnumberedEach_append (ss ss' : List Stmt) :
    unnumberedEach (ss ++ ss') = unnumberedEach ss ++ unnumberedEach ss' := by
  induction ss with
  | nil => rfl
  | cons s ss ih => simp [unnumberedEach, ih]

lemma unnumberedDecls_append (ds ds' : List FunctionDecl) :
    unnumberedDecls (ds ++ ds') = unnumberedDecls ds ++ unnumberedDecls ds' := by
  induction ds with
  | nil => rfl
  | cons d ds ih => simp [unnumberedDecls, ih]

end Stmt

namespace Grammar

/-! ### Limits and breaks -/

/-- Argument and parameter lists have at most 255 entries, and a `break` stands in the body of a
loop, with no function or method in between. The flag says whether the statement itself stands in
the body of a loop. -/
inductive Admissible : Bool → Stmt → Prop
  | expression {b e} : e.widest ≤ 255 → Admissible b (.expression e)
  | print {b e} : e.widest ≤ 255 → Admissible b (.print e)
  | declare {b name initial} : (∀ e ∈ initial, e.widest ≤ 255) →
      Admissible b (.declare name initial)
  | block {b body} : (∀ s ∈ body, Admissible b s) → Admissible b (.block body)
  | branch {b c t e} : c.widest ≤ 255 → Admissible b t → (∀ s ∈ e, Admissible b s) →
      Admissible b (.branch c t e)
  | loop {b c body} : c.widest ≤ 255 → Admissible true body → Admissible b (.loop c body)
  | breakLoop {keyword} : Admissible true (.breakLoop keyword)
  | function {b d} : (∀ ps ∈ d.params, ps.length ≤ 255) → (∀ s ∈ d.body, Admissible false s) →
      Admissible b (.function d)
  | returnFrom {b keyword value} : (∀ e ∈ value, e.widest ≤ 255) →
      Admissible b (.returnFrom keyword value)
  | classDecl {b name methods statics} :
      (∀ m ∈ methods ++ statics, ∀ ps ∈ m.params, ps.length ≤ 255) →
      (∀ m ∈ methods ++ statics, ∀ s ∈ m.body, Admissible false s) →
      Admissible b (.classDecl name methods statics)

/-- Within a loop more is admissible. -/
lemma Admissible.in_loop {b : Bool} {s : Stmt} (h : Admissible b s) : Admissible true s := by
  induction h with
  | expression h => exact .expression h
  | print h => exact .print h
  | declare h => exact .declare h
  | block _ ih => exact .block ih
  | branch h _ _ iht ihe => exact .branch h iht ihe
  | loop h _ ih => exact .loop h ih
  | breakLoop => exact .breakLoop
  | function h h' _ => exact .function h h'
  | returnFrom h => exact .returnFrom h
  | classDecl h h' _ => exact .classDecl h h'

lemma admissible_block {b : Bool} {body : List Stmt} :
    Admissible b (.block body) ↔ ∀ s ∈ body, Admissible b s :=
  ⟨fun | .block h => h, .block⟩

lemma admissible_branch {b : Bool} {c : Expr} {t : Stmt} {e : Option Stmt} :
    Admissible b (.branch c t e) ↔
      c.widest ≤ 255 ∧ Admissible b t ∧ ∀ s ∈ e, Admissible b s :=
  ⟨fun | .branch hc ht he => ⟨hc, ht, he⟩, fun ⟨hc, ht, he⟩ => .branch hc ht he⟩

lemma admissible_loop {b : Bool} {c : Expr} {body : Stmt} :
    Admissible b (.loop c body) ↔ c.widest ≤ 255 ∧ Admissible true body :=
  ⟨fun | .loop hc h => ⟨hc, h⟩, fun ⟨hc, h⟩ => .loop hc h⟩

lemma admissible_expression {b : Bool} {e : Expr} :
    Admissible b (.expression e) ↔ e.widest ≤ 255 :=
  ⟨fun | .expression h => h, .expression⟩

/-- A function or method whose lists and statements are admissible. -/
def AdmissibleDecl (d : FunctionDecl) : Prop :=
  (∀ ps ∈ d.params, ps.length ≤ 255) ∧ ∀ s ∈ d.body, Admissible false s

lemma admissible_function {b : Bool} {d : FunctionDecl} :
    Admissible b (.function d) ↔ AdmissibleDecl d :=
  ⟨fun | .function h h' => ⟨h, h'⟩, fun ⟨h, h'⟩ => .function h h'⟩

lemma admissible_classDecl {b : Bool} {name : Token} {methods statics : List FunctionDecl} :
    Admissible b (.classDecl name methods statics) ↔
      (∀ m ∈ methods, AdmissibleDecl m) ∧ ∀ m ∈ statics, AdmissibleDecl m := by
  rw [← List.forall_mem_append]
  exact ⟨fun | .classDecl h h' => fun m hm => ⟨h m hm, h' m hm⟩,
    fun h => .classDecl (fun m hm => (h m hm).1) (fun m hm => (h m hm).2)⟩

/-! ### Derivations -/

/-- The loop that a for loop stands for: what comes first, in a block with a loop, whose body ends
with the increment, in another block. -/
def forLoop (first : Option Stmt) (condition increment : Option Expr) (body : Stmt) : Stmt :=
  let round :=
    match increment with
    | none => body
    | some e => .block [body, .expression e]
  let rounds :=
    match condition with
    | none => .loop (.literal (.boolean true)) round
    | some c => .loop c round
  match first with
  | none => rounds
  | some s => .block [s, rounds]

lemma admissible_forLoop {b : Bool} {first : Option Stmt} {condition increment : Option Expr}
    {body : Stmt} :
    Admissible b (forLoop first condition increment body) ↔
      (∀ s ∈ first, Admissible b s) ∧ (∀ e ∈ condition, e.widest ≤ 255) ∧
        (∀ e ∈ increment, e.widest ≤ 255) ∧ Admissible true body := by
  cases first <;> cases condition <;> cases increment <;>
    simp [forLoop, admissible_block, admissible_loop, admissible_expression, Expr.widest, and_comm]

lemma ids_forLoop (first : Option Stmt) (condition increment : Option Expr) (body : Stmt) :
    (forLoop first condition increment body).ids = first.elim [] Stmt.ids ++
      (condition.elim [] Expr.ids ++ (body.ids ++ increment.elim [] Expr.ids)) := by
  cases first <;> cases condition <;> cases increment <;>
    simp [forLoop, Stmt.ids, Stmt.idsOf, Expr.ids]

lemma unnumbered_forLoop (first : Option Stmt) (condition increment : Option Expr) (body : Stmt) :
    (forLoop first condition increment body).unnumbered =
      forLoop (first.map Stmt.unnumbered) (condition.map Expr.unnumbered)
        (increment.map Expr.unnumbered) body.unnumbered := by
  cases first <;> cases condition <;> cases increment <;>
    simp [forLoop, Stmt.unnumbered, Stmt.unnumberedEach, Expr.unnumbered]

lemma ForHead.loop_eq (head : ForHead) (body : Stmt) :
    head.loop body = forLoop head.first head.condition head.increment body := by
  obtain ⟨first, condition, increment⟩ := head
  cases first <;> cases condition <;> cases increment <;> rfl

/-- An expression and its text. -/
def Expression (e : Expr) (ts : List Token) : Prop := At .comma e ∧ Spells e.yield ts

/-- An expression that may be missing. -/
inductive OptExpression : Option Expr → List Token → Prop
  | none : OptExpression none []
  | some {e ts} : Expression e ts → OptExpression (some e) ts

/-- Names with commas between them. -/
def Names (names : List Token) (ts : List Token) : Prop :=
  (∀ t ∈ names, t.kind = .identifier) ∧
    Spells ((names.map Mark.token).intersperse (.symbol .comma)) ts

inductive VarDecl : Stmt → List Token → Prop
  | bare {var name semicolon} : var.kind = .keyword .kwVar → name.kind = .identifier →
      semicolon.kind = .symbol .semicolon → VarDecl (.declare name none) [var, name, semicolon]
  | initialized {var name equals e ts semicolon} : var.kind = .keyword .kwVar →
      name.kind = .identifier → equals.kind = .symbol .equal → Expression e ts →
      semicolon.kind = .symbol .semicolon →
      VarDecl (.declare name (some e)) (var :: name :: equals :: (ts ++ [semicolon]))

inductive ExprStmt : Stmt → List Token → Prop
  | intro {e ts semicolon} : Expression e ts → semicolon.kind = .symbol .semicolon →
      ExprStmt (.expression e) (ts ++ [semicolon])

/-- What comes first in the head of a for loop. -/
inductive ForFirst : Option Stmt → List Token → Prop
  | var {s ts} : VarDecl s ts → ForFirst (some s) ts
  | expression {s ts} : ExprStmt s ts → ForFirst (some s) ts
  | none {semicolon} : semicolon.kind = .symbol .semicolon → ForFirst none [semicolon]

inductive Nonterminal
  | declarations | declaration | statement | function (sort : FunctionSort) | members

/-- The trees that derive from a nonterminal. Members are instance methods and static ones. -/
abbrev Nonterminal.Tree : Nonterminal → Type
  | declarations => List Stmt
  | declaration => Stmt
  | statement => Stmt
  | function _ => FunctionDecl
  | members => List FunctionDecl × List FunctionDecl

/-- What is admissible of a nonterminal. -/
def Nonterminal.Admissible (b : Bool) : (q : Nonterminal) → q.Tree → Prop
  | declarations, body => ∀ s ∈ body, Grammar.Admissible b s
  | declaration, s => Grammar.Admissible b s
  | statement, s => Grammar.Admissible b s
  | function _, d => AdmissibleDecl d
  | members, (methods, statics) =>
    (∀ m ∈ methods, AdmissibleDecl m) ∧ ∀ m ∈ statics, AdmissibleDecl m

/-- The numbers in a tree of a nonterminal. -/
def Nonterminal.ids : (q : Nonterminal) → q.Tree → List NodeId
  | declarations, body => Stmt.idsOf body
  | declaration, s => s.ids
  | statement, s => s.ids
  | function _, d => Stmt.idsOfDecl d
  | members, (methods, statics) => Stmt.idsOfDecls methods ++ Stmt.idsOfDecls statics

/-- A tree of a nonterminal, whether it is open, and the tokens it derives from. -/
inductive Derives (strict : Bool) : (q : Nonterminal) → q.Tree → Bool → List Token → Prop
  -- program and block: declaration*
  | nil : Derives strict .declarations [] false []
  | cons {s o ts body us} : Derives strict .declaration s o ts →
      Derives strict .declarations body false us →
      Derives strict .declarations (s :: body) false (ts ++ us)
  -- declaration
  | classDecl {word name opening methods statics ts closing} : word.kind = .keyword .kwClass →
      name.kind = .identifier → opening.kind = .symbol .leftBrace →
      Derives strict .members (methods, statics) false ts → closing.kind = .symbol .rightBrace →
      Derives strict .declaration (.classDecl name methods statics) false
        (word :: name :: opening :: (ts ++ [closing]))
  | funDecl {word d ts} : word.kind = .keyword .kwFun →
      Derives strict (.function .function) d false ts →
      Derives strict .declaration (.function d) false (word :: ts)
  | varDecl {s ts} : VarDecl s ts → Derives strict .declaration s false ts
  | ofStatement {s o ts} : Derives strict .statement s o ts → Derives strict .declaration s o ts
  -- the members of a class: ( "class"? method )*
  | noMembers : Derives strict .members ([], []) false []
  | instanceMethod {m ts methods statics us} : Derives strict (.function .method) m false ts →
      Derives strict .members (methods, statics) false us →
      Derives strict .members (m :: methods, statics) false (ts ++ us)
  | staticMethod {word m ts methods statics us} : word.kind = .keyword .kwClass →
      Derives strict (.function .method) m false ts →
      Derives strict .members (methods, statics) false us →
      Derives strict .members (methods, m :: statics) false (word :: (ts ++ us))
  -- functions and methods; a getter has no parameter list
  | function {sort name opening params ts closing brace body us brace'} :
      name.kind = .identifier → opening.kind = .symbol .leftParen → Names params ts →
      closing.kind = .symbol .rightParen → brace.kind = .symbol .leftBrace →
      Derives strict .declarations body false us → brace'.kind = .symbol .rightBrace →
      Derives strict (.function sort) (.mk name (some params) body) false
        (name :: opening :: (ts ++ closing :: brace :: (us ++ [brace'])))
  | getter {name brace body us brace'} : name.kind = .identifier →
      brace.kind = .symbol .leftBrace → Derives strict .declarations body false us →
      brace'.kind = .symbol .rightBrace →
      Derives strict (.function .method) (.mk name none body) false
        (name :: brace :: (us ++ [brace']))
  -- statement
  | exprStmt {s ts} : ExprStmt s ts → Derives strict .statement s false ts
  | printStmt {word e ts semicolon} : word.kind = .keyword .kwPrint → Expression e ts →
      semicolon.kind = .symbol .semicolon →
      Derives strict .statement (.print e) false (word :: (ts ++ [semicolon]))
  | ifStmt {word opening c ts closing s o us} : word.kind = .keyword .kwIf →
      opening.kind = .symbol .leftParen → Expression c ts → closing.kind = .symbol .rightParen →
      Derives strict .statement s o us →
      Derives strict .statement (.branch c s none) true
        (word :: opening :: (ts ++ closing :: us))
  | ifElse {word opening c ts closing s o us word' s' o' vs} : word.kind = .keyword .kwIf →
      opening.kind = .symbol .leftParen → Expression c ts → closing.kind = .symbol .rightParen →
      Derives strict .statement s o us → (strict → o = false) →
      word'.kind = .keyword .kwElse → Derives strict .statement s' o' vs →
      Derives strict .statement (.branch c s (some s')) o'
        (word :: opening :: (ts ++ closing :: (us ++ word' :: vs)))
  | whileStmt {word opening c ts closing s o us} : word.kind = .keyword .kwWhile →
      opening.kind = .symbol .leftParen → Expression c ts → closing.kind = .symbol .rightParen →
      Derives strict .statement s o us →
      Derives strict .statement (.loop c s) o (word :: opening :: (ts ++ closing :: us))
  | forStmt {word opening first ts condition us semicolon increment vs closing s o ws} :
      word.kind = .keyword .kwFor → opening.kind = .symbol .leftParen → ForFirst first ts →
      OptExpression condition us → semicolon.kind = .symbol .semicolon →
      OptExpression increment vs → closing.kind = .symbol .rightParen →
      Derives strict .statement s o ws →
      Derives strict .statement (forLoop first condition increment s) o
        (word :: opening :: (ts ++ (us ++ semicolon :: (vs ++ closing :: ws))))
  | breakStmt {word semicolon} : word.kind = .keyword .kwBreak →
      semicolon.kind = .symbol .semicolon →
      Derives strict .statement (.breakLoop word) false [word, semicolon]
  | returnStmt {word value ts semicolon} : word.kind = .keyword .kwReturn →
      OptExpression value ts → semicolon.kind = .symbol .semicolon →
      Derives strict .statement (.returnFrom word value) false (word :: (ts ++ [semicolon]))
  | block {opening body ts closing} : opening.kind = .symbol .leftBrace →
      Derives strict .declarations body false ts → closing.kind = .symbol .rightBrace →
      Derives strict .statement (.block body) false (opening :: (ts ++ [closing]))

/-! ### First tokens -/

/-- No `else` is in front. -/
def NoElse (rest : List Token) : Prop := ∀ t ∈ rest.head?, t.kind.isKeyword .kwElse = false

/-- The tokens that start a tree of a nonterminal, where one is never empty. -/
def Nonterminal.starts : Nonterminal → Kind → Bool
  | declaration, k => startsStatement k || k.isSymbol .leftBrace || begins k
  | statement, k =>
    (startsStatement k || k.isSymbol .leftBrace || begins k) &&
      !(k.isKeyword .kwClass || k.isKeyword .kwFun || k.isKeyword .kwVar)
  | function _, k => k.isIdentifier
  | _, _ => true

/-- The tokens of a declaration, statement or function begin with one that starts it. -/
def Starts (q : Nonterminal) (ts : List Token) : Prop :=
  (q = .declarations ∨ q = .members) ∨ ∃ t us, ts = t :: us ∧ q.starts t.kind

lemma Expression.begins {e : Expr} {ts : List Token} (h : Expression e ts) :
    ∃ t us, ts = t :: us ∧ begins t.kind := by
  obtain ⟨t, us, rfl, hb⟩ := h.1.begins ts h.2
  exact ⟨t, us, rfl, hb.1⟩

lemma ExprStmt.begins {s : Stmt} {ts : List Token} (h : ExprStmt s ts) :
    ∃ t us, ts = t :: us ∧ begins t.kind := by
  cases h with
  | intro he _ =>
    obtain ⟨t, us, rfl, ht⟩ := he.begins
    exact ⟨t, _, rfl, ht⟩

lemma starts_statement_of_begins {k : Kind} (h : begins k) : Nonterminal.statement.starts k := by
  unfold begins at h
  split at h <;> first | rfl | exact absurd h (by decide)

lemma Derives.starts {strict : Bool} {q : Nonterminal} {x : q.Tree} {o : Bool} {ts : List Token}
    (h : Derives strict q x o ts) : Starts q ts := by
  have first : ∀ {q : Nonterminal} {t : Token} {k : Kind} (us : List Token), t.kind = k →
      q.starts k → Starts q (t :: us) := by
    rintro q t _ us rfl h
    exact .inr ⟨t, us, rfl, h⟩
  induction h with
  | nil => exact .inl (.inl rfl)
  | cons => exact .inl (.inl rfl)
  | noMembers => exact .inl (.inr rfl)
  | instanceMethod => exact .inl (.inr rfl)
  | staticMethod => exact .inl (.inr rfl)
  | varDecl h => cases h with
    | bare h => exact first _ h rfl
    | initialized h => exact first _ h rfl
  | ofStatement _ ih =>
    obtain h | ⟨t, us, rfl, ht⟩ := ih
    · rcases h with h | h <;> cases h
    · rw [Nonterminal.starts, Bool.and_eq_true] at ht
      exact .inr ⟨t, us, rfl, ht.1⟩
  | exprStmt h =>
    obtain ⟨t, us, rfl, ht⟩ := h.begins
    exact .inr ⟨t, us, rfl, starts_statement_of_begins ht⟩
  | classDecl h => exact first _ h rfl
  | funDecl h => exact first _ h rfl
  | function h => exact first _ h rfl
  | getter h => exact first _ h rfl
  | printStmt h => exact first _ h rfl
  | ifStmt h => exact first _ h rfl
  | ifElse h => exact first _ h rfl
  | whileStmt h => exact first _ h rfl
  | forStmt h => exact first _ h rfl
  | breakStmt h => exact first _ h rfl
  | returnStmt h => exact first _ h rfl
  | block h => exact first _ h rfl

lemma Derives.starts_of_statement {strict : Bool} {s : Stmt} {o : Bool} {ts : List Token}
    (h : Derives strict .statement s o ts) :
    ∃ t us, ts = t :: us ∧ Nonterminal.statement.starts t.kind :=
  h.starts.resolve_left (by simp)

lemma Derives.starts_of_declaration {strict : Bool} {s : Stmt} {o : Bool} {ts : List Token}
    (h : Derives strict .declaration s o ts) :
    ∃ t us, ts = t :: us ∧ Nonterminal.declaration.starts t.kind :=
  h.starts.resolve_left (by simp)

lemma Derives.starts_of_function {strict : Bool} {sort : FunctionSort} {d : FunctionDecl}
    {o : Bool} {ts : List Token} (h : Derives strict (.function sort) d o ts) :
    ∃ t us, ts = t :: us ∧ t.kind.isIdentifier :=
  h.starts.resolve_left (by simp)

end Grammar

end Lox
