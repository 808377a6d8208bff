import Lox.Proofs.Grammar.ExpressionReading
import Lox.Proofs.Grammar.NearestElse

/-!
What the rules for declarations and statements read: the tokens of a strict derivation.
-/

namespace Lox.Grammar

open Rule

variable {n : ℕ} {c : Cursor}

/-! ### Parts of statements -/

/-- An expression that may be missing, read while the numbers went from `i` to `j`. -/
structure ReadOpt (i : NodeId) (ts : List Token) (o : Option Expr) (j : NodeId) : Prop where
  derives : OptExpression o ts
  narrow : ∀ e ∈ o, e.widest ≤ 255
  fresh : Fresh i j (o.elim [] Expr.ids)

/-- A statement without statements inside, read while the numbers went from `i` to `j`. -/
structure ReadSimple (D : Stmt → List Token → Prop) (i : NodeId) (ts : List Token) (s : Stmt)
    (j : NodeId) : Prop where
  derives : D s ts
  admissible : ∀ b, Admissible b s
  fresh : Fresh i j s.ids

lemma ReadAs.derives {i j : NodeId} {ts : List Token} {e : Expr} (h : ReadAs .comma i ts e j) :
    Expression e ts := ⟨h.level, h.spelled⟩

lemma readsAt_expression :
    (expression n).ReadsAt c fun ts e c' => ReadAs .comma c.nextId ts e c'.nextId :=
  (exprReads n).expr .comma c

lemma readsAt_optExpression (s : Symbol) :
    (unlessSees s none (some <$> expression n)).ReadsAt c fun ts o c' =>
      ReadOpt c.nextId ts o c'.nextId := by
  refine readsAt_unlessSees ⟨.none, by simp, .nil le_rfl⟩ (readsAt_map ?_)
  exact readsAt_expression.mono fun ts e c' h => ⟨.some h.derives, by simpa using h.narrow, h.fresh⟩

lemma readsAt_varDeclaration :
    (varDeclaration n).ReadsAt c fun ts s c' => ∀ var, var.kind = .keyword .kwVar →
      ReadSimple VarDecl c.nextId (var :: ts) s c'.nextId := by
  refine readsAt_expect_bind fun name rest hname => ?_
  replace hname := kind_of_isIdentifier hname
  refine readsAt_bind (P := fun ts o c' => ∀ semicolon var, semicolon.kind = .symbol .semicolon →
      var.kind = .keyword .kwVar → ReadSimple VarDecl c.nextId (var :: name :: (ts ++ [semicolon]))
        (.declare name o) c'.nextId) ?_ fun initial c₁ => ?_
  · refine readsAt_accept_bind (fun _ => readsAt_pure ?_) fun equals rest _ hequals => ?_
    · intro semicolon var hsemicolon hvar
      exact ⟨.bare hvar hname hsemicolon, fun _ => .declare (by simp), .nil le_rfl⟩
    · refine readsAt_map (readsAt_expression.mono fun ts e c' h semicolon var hsemicolon hvar => ?_)
      refine ⟨.initialized hvar hname (kind_of_isSymbol hequals) h.derives hsemicolon, ?_, h.fresh⟩
      exact fun _ => .declare (by simpa using h.narrow)
  · refine readsAt_expect_bind fun semicolon rest hsemicolon => readsAt_pure ?_
    intro ts h var hvar
    exact h semicolon var (kind_of_isSymbol hsemicolon) hvar

lemma readsAt_expressionStatement :
    (expressionStatement n).ReadsAt c fun ts s c' =>
      ReadSimple ExprStmt c.nextId ts s c'.nextId := by
  refine readsAt_bind readsAt_expression fun e c₁ => ?_
  refine readsAt_expect_bind fun semicolon rest hsemicolon => readsAt_pure fun ts h => ?_
  exact ⟨.intro h.derives (kind_of_isSymbol hsemicolon), fun _ => .expression h.narrow, h.fresh⟩

/-! ### Parameters -/

lemma names_cons {name comma : Token} {names ts : List Token} (hname : name.kind = .identifier)
    (hcomma : comma.kind = .symbol .comma) (hne : names ≠ []) (h : Names names ts) :
    Names (name :: names) (name :: comma :: ts) := by
  obtain ⟨a, names, rfl⟩ := List.exists_cons_of_ne_nil hne
  exact ⟨List.forall_mem_cons.mpr ⟨hname, h.1⟩, (h.2.symbol hcomma).token name⟩

lemma names_singleton {name : Token} (hname : name.kind = .identifier) : Names [name] [name] :=
  ⟨by simpa using hname, Spells.nil.token name⟩

lemma readsAt_parameterList (found : List Token) :
    (parameterList n found).ReadsAt c fun ts names c' => c'.nextId = c.nextId ∧
      ∃ more, names = found.reverse ++ more ∧ more ≠ [] ∧ Names more ts ∧
        names.length ≤ 255 := by
  induction n generalizing found c with
  | zero => exact readsAt_exhausted
  | succ n ih =>
    rw [parameterList]
    refine readsAt_peek_bind (readsAt_require_bind fun c₀ _ hid => ?_)
    refine readsAt_expect_bind fun name rest hname => ?_
    replace hname := kind_of_isIdentifier hname
    refine readsAt_accept_bind (fun _ => ?_) fun comma rest _ hcomma => ?_
    · refine readsAt_pure fun hlen => ⟨hid, [name], by simp, by simp, names_singleton hname, ?_⟩
      have hlen : found.length < 255 := of_decide_eq_true hlen
      simp only [List.length_reverse, List.length_cons]
      omega
    · refine (ih _).mono ?_
      rintro ts names c' ⟨hid', more, rfl, hne, hmore, hlen⟩ -
      refine ⟨hid'.trans hid, name :: more, by simp, by simp, ?_, hlen⟩
      exact names_cons hname (kind_of_isSymbol hcomma) hne hmore

/-- The parameter list of a function, if there is one, with its parentheses. -/
inductive ReadParameters (sort : FunctionSort) : List Token → Option (List Token) → Prop
  | getter : sort = .method → ReadParameters sort [] none
  | list {opening ts names closing} : opening.kind = .symbol .leftParen → Names names ts →
      closing.kind = .symbol .rightParen → names.length ≤ 255 →
      ReadParameters sort (opening :: (ts ++ [closing])) (some names)

lemma readsAt_parameters (sort : FunctionSort) :
    (parameters n sort).ReadsAt c fun ts params c' =>
      c'.nextId = c.nextId ∧ ReadParameters sort ts params := by
  refine readsAt_sees_bind fun b => ?_
  split
  · rename_i h
    have : sort = .method := by simp_all
    exact readsAt_pure ⟨rfl, .getter this⟩
  · refine readsAt_expect_bind fun opening rest hopening => ?_
    refine readsAt_bind (P := fun ts names c' => c'.nextId = c.nextId ∧ Names names ts ∧
      names.length ≤ 255) (readsAt_unlessSees ?_ ?_) fun names c₁ => ?_
    · exact ⟨rfl, ⟨by simp, .nil⟩, by simp⟩
    · refine (readsAt_parameterList []).mono ?_
      rintro ts names c' ⟨hid, more, rfl, -, hmore, hlen⟩
      exact ⟨hid, hmore, hlen⟩
    · refine readsAt_expect_bind fun closing rest hclosing => readsAt_pure ?_
      rintro ts ⟨hid, hnames, hlen⟩
      exact ⟨hid, .list (kind_of_isSymbol hopening) hnames (kind_of_isSymbol hclosing) hlen⟩

/-! ### The heads of for loops -/

/-- What comes first in a for loop, read while the numbers went from `i` to `j`. -/
structure ReadFirst (i : NodeId) (ts : List Token) (first : Option Stmt) (j : NodeId) : Prop where
  derives : ForFirst first ts
  admissible : ∀ s ∈ first, ∀ b, Admissible b s
  fresh : Fresh i j (first.elim [] Stmt.ids)

lemma readsAt_forFirst :
    (forFirst n).ReadsAt c fun ts first c' => ReadFirst c.nextId ts first c'.nextId := by
  refine readsAt_accept_bind (fun _ => ?_) fun semicolon rest _ hsemicolon => readsAt_pure ?_
  · refine readsAt_accept_bind (fun _ => ?_) fun var rest _ hvar => ?_
    · refine readsAt_map (readsAt_expressionStatement.mono fun ts s c' h => ?_)
      exact ⟨.expression h.derives, by simpa using h.admissible, h.fresh⟩
    · refine readsAt_map (readsAt_varDeclaration.mono fun ts s c' h => ?_)
      replace h := h var (kind_of_isKeyword hvar)
      exact ⟨.var h.derives, by simpa using h.admissible, h.fresh⟩
  · exact ⟨.none (kind_of_isSymbol hsemicolon), by simp, .nil le_rfl⟩

/-- The head of a for loop, read while the numbers went from `i` to `j`. -/
inductive ReadHead (i : NodeId) : List Token → ForHead → NodeId → Prop
  | intro {opening first ts condition us semicolon increment vs closing j k m} :
      opening.kind = .symbol .leftParen → ReadFirst i ts first j → ReadOpt j us condition k →
      semicolon.kind = .symbol .semicolon → ReadOpt k vs increment m →
      closing.kind = .symbol .rightParen →
      ReadHead i (opening :: (ts ++ (us ++ semicolon :: (vs ++ [closing]))))
        ⟨first, condition, increment⟩ m

lemma readsAt_forHead :
    (forHead n).ReadsAt c fun ts head c' => ReadHead c.nextId ts head c'.nextId := by
  refine readsAt_expect_bind fun opening rest hopening => ?_
  refine readsAt_bind readsAt_forFirst fun first c₁ => ?_
  refine readsAt_bind (readsAt_optExpression _) fun condition c₂ => ?_
  refine readsAt_expect_bind fun semicolon rest hsemicolon => ?_
  refine readsAt_bind (readsAt_optExpression _) fun increment c₃ => ?_
  refine readsAt_expect_bind fun closing rest hclosing => readsAt_pure ?_
  intro vs hincrement us hcondition ts hfirst
  exact .intro (kind_of_isSymbol hopening) hfirst hcondition (kind_of_isSymbol hsemicolon)
    hincrement (kind_of_isSymbol hclosing)

/-! ### Declarations and statements -/

/-- A tree of a nonterminal, read from some tokens while the numbers went from `i` to `j`. -/
structure Reads (q : Nonterminal) (b : Bool) (i : NodeId) (ts : List Token) (x : q.Tree) (o : Bool)
    (j : NodeId) : Prop where
  derives : Derives true q x o ts
  admissible : q.Admissible b x
  fresh : Fresh i j (q.ids x)

namespace Reads

variable {b b' o o' : Bool} {i j k l m : NodeId} {ts us vs : List Token} {s s' : Stmt}
  {body : List Stmt} {d : FunctionDecl} {t t' u u' : Token} {e : Expr}

lemma nil : Reads .declarations b i [] [] false i := ⟨.nil, nofun, .nil le_rfl⟩

lemma cons (h : Reads .declaration b i ts s o j) (h' : Reads .declarations b j us body false k) :
    Reads .declarations b i (ts ++ us) (s :: body) false k :=
  ⟨.cons h.derives h'.derives, List.forall_mem_cons.mpr ⟨h.admissible, h'.admissible⟩,
    h.fresh.append h'.fresh⟩

lemma noMembers : Reads .members b i [] ([], []) false i :=
  ⟨.noMembers, ⟨nofun, nofun⟩, .nil le_rfl⟩

lemma instanceMethod {methods statics : List FunctionDecl}
    (h : Reads (.function .method) b i ts d false j)
    (h' : Reads .members b j us (methods, statics) false k) :
    Reads .members b i (ts ++ us) (d :: methods, statics) false k where
  derives := .instanceMethod h.derives h'.derives
  admissible := ⟨List.forall_mem_cons.mpr ⟨h.admissible, h'.admissible.1⟩, h'.admissible.2⟩
  fresh := by
    simp only [Nonterminal.ids, Stmt.idsOfDecls, List.append_assoc]
    exact h.fresh.append h'.fresh

lemma staticMethod {methods statics : List FunctionDecl} (ht : t.kind = .keyword .kwClass)
    (h : Reads (.function .method) b i ts d false j)
    (h' : Reads .members b j us (methods, statics) false k) :
    Reads .members b i (t :: (ts ++ us)) (methods, d :: statics) false k where
  derives := .staticMethod ht h.derives h'.derives
  admissible := ⟨h'.admissible.1, List.forall_mem_cons.mpr ⟨h.admissible, h'.admissible.2⟩⟩
  fresh := by
    refine (h.fresh.append h'.fresh).perm ?_
    simp only [Nonterminal.ids, Stmt.idsOfDecls]
    exact List.perm_append_comm_assoc _ _ _

lemma classDecl {methods statics : List FunctionDecl} (ht : t.kind = .keyword .kwClass)
    (ht' : t'.kind = .identifier) (hu : u.kind = .symbol .leftBrace)
    (h : Reads .members b' i ts (methods, statics) false j) (hu' : u'.kind = .symbol .rightBrace) :
    Reads .declaration b i (t :: t' :: u :: (ts ++ [u'])) (.classDecl t' methods statics) false j :=
  ⟨.classDecl ht ht' hu h.derives hu', admissible_classDecl.mpr h.admissible, h.fresh⟩

lemma funDecl (ht : t.kind = .keyword .kwFun) (h : Reads (.function .function) b' i ts d false j) :
    Reads .declaration b i (t :: ts) (.function d) false j :=
  ⟨.funDecl ht h.derives, admissible_function.mpr h.admissible, h.fresh⟩

lemma varDecl (h : ReadSimple VarDecl i ts s j) : Reads .declaration b i ts s false j :=
  ⟨.varDecl h.derives, h.admissible b, h.fresh⟩

lemma ofStatement (h : Reads .statement b i ts s o j) : Reads .declaration b i ts s o j :=
  ⟨.ofStatement h.derives, h.admissible, h.fresh⟩

lemma function {sort : FunctionSort} {params : Option (List Token)} (ht : t.kind = .identifier)
    (hparams : ReadParameters sort ts params) (hu : u.kind = .symbol .leftBrace)
    (h : Reads .declarations false i us body false j) (hu' : u'.kind = .symbol .rightBrace) :
    Reads (.function sort) b i (t :: (ts ++ u :: (us ++ [u']))) (.mk t params body) false j := by
  cases hparams with
  | getter hsort =>
    subst hsort
    exact ⟨.getter ht hu h.derives hu', ⟨nofun, h.admissible⟩, h.fresh⟩
  | list hleft hnames hright hlen =>
    refine ⟨?_, ⟨by simpa [FunctionDecl.params] using hlen, h.admissible⟩, h.fresh⟩
    simpa using Derives.function ht hleft hnames hright hu h.derives hu'

lemma exprStmt (h : ReadSimple ExprStmt i ts s j) : Reads .statement b i ts s false j :=
  ⟨.exprStmt h.derives, h.admissible b, h.fresh⟩

lemma printStmt (ht : t.kind = .keyword .kwPrint) (h : ReadAs .comma i ts e j)
    (ht' : t'.kind = .symbol .semicolon) :
    Reads .statement b i (t :: (ts ++ [t'])) (.print e) false j :=
  ⟨.printStmt ht h.derives ht', .print h.narrow, h.fresh⟩

lemma breakStmt (hb : b) (ht : t.kind = .keyword .kwBreak) (ht' : t'.kind = .symbol .semicolon) :
    Reads .statement b i [t, t'] (.breakLoop t) false i := by
  subst hb
  exact ⟨.breakStmt ht ht', .breakLoop, .nil le_rfl⟩

lemma returnStmt {value : Option Expr} (ht : t.kind = .keyword .kwReturn)
    (h : ReadOpt i ts value j) (ht' : t'.kind = .symbol .semicolon) :
    Reads .statement b i (t :: (ts ++ [t'])) (.returnFrom t value) false j :=
  ⟨.returnStmt ht h.derives ht', .returnFrom h.narrow, h.fresh⟩

lemma block (ht : t.kind = .symbol .leftBrace) (h : Reads .declarations b i ts body false j)
    (ht' : t'.kind = .symbol .rightBrace) :
    Reads .statement b i (t :: (ts ++ [t'])) (.block body) false j :=
  ⟨.block ht h.derives ht', .block h.admissible, h.fresh⟩

lemma whileStmt (ht : t.kind = .keyword .kwWhile) (ht' : t'.kind = .symbol .leftParen)
    (hc : ReadAs .comma i ts e j) (hu : u.kind = .symbol .rightParen)
    (h : Reads .statement true j us s o k) :
    Reads .statement b i (t :: t' :: (ts ++ u :: us)) (.loop e s) o k :=
  ⟨.whileStmt ht ht' hc.derives hu h.derives, .loop hc.narrow h.admissible,
    hc.fresh.append h.fresh⟩

lemma ifStmt (ht : t.kind = .keyword .kwIf) (ht' : t'.kind = .symbol .leftParen)
    (hc : ReadAs .comma i ts e j) (hu : u.kind = .symbol .rightParen)
    (h : Reads .statement b j us s o k) :
    Reads .statement b i (t :: t' :: (ts ++ u :: us)) (.branch e s none) true k :=
  ⟨.ifStmt ht ht' hc.derives hu h.derives, .branch hc.narrow h.admissible nofun,
    hc.fresh.append h.fresh⟩

lemma ifElse (ht : t.kind = .keyword .kwIf) (ht' : t'.kind = .symbol .leftParen)
    (hc : ReadAs .comma i ts e j) (hu : u.kind = .symbol .rightParen)
    (h : Reads .statement b j us s false k) (hu' : u'.kind = .keyword .kwElse)
    (h' : Reads .statement b k vs s' o l) :
    Reads .statement b i (t :: t' :: (ts ++ u :: (us ++ u' :: vs))) (.branch e s (some s')) o l
    where
  derives := .ifElse ht ht' hc.derives hu h.derives (fun _ => rfl) hu' h'.derives
  admissible := by
    refine .branch hc.narrow h.admissible ?_
    rintro _ ⟨⟩
    exact h'.admissible
  fresh := hc.fresh.append (h.fresh.append h'.fresh)

lemma forStmt {head : ForHead} (ht : t.kind = .keyword .kwFor) (hhead : ReadHead i ts head j)
    (h : Reads .statement true j us s o k) :
    Reads .statement b i (t :: (ts ++ us)) (head.loop s) o k := by
  obtain ⟨hleft, hfirst, hcondition, hsemicolon, hincrement, hright⟩ := hhead
  rename_i first ts condition vs semicolon increment ws closing j₁ j₂
  rw [ForHead.loop_eq]
  refine ⟨?_, admissible_forLoop.mpr ⟨fun s hs => hfirst.admissible s hs b, hcondition.narrow,
    hincrement.narrow, h.admissible⟩, ?_⟩
  · simpa using Derives.forStmt ht hleft hfirst.derives hcondition.derives hsemicolon
      hincrement.derives hright h.derives
  · -- the increment comes before the body in the text, and after it in the tree
    refine (hfirst.fresh.append (hcondition.fresh.append
      (hincrement.fresh.append h.fresh))).perm ?_
    rw [Nonterminal.ids, Nonterminal.ids, ids_forLoop]
    exact (List.perm_append_comm.append_left _).append_left _

end Reads

/-- What the rules for declarations and statements read with `n` steps. An open statement is not
followed by an `else`. -/
structure StmtReads (n : ℕ) : Prop where
  declaration : ∀ b c, (declaration n b).ReadsAt c fun ts r c' => ∃ s o, r = some s ∧
    Reads .declaration b c.nextId ts s o c'.nextId
  statement : ∀ b c, (statement n b).ReadsAt c fun ts s c' => ∃ o,
    Reads .statement b c.nextId ts s o c'.nextId ∧ (o = true → NoElse c'.rest)
  block : ∀ b found c, (block n b found).ReadsAt c fun ts body c' => ∃ us more closing,
    ts = us ++ [closing] ∧ closing.kind = .symbol .rightBrace ∧ body = found.reverse ++ more ∧
      Reads .declarations b c.nextId us more false c'.nextId
  function : ∀ sort c, (function n sort).ReadsAt c fun ts d c' =>
    Reads (.function sort) false c.nextId ts d false c'.nextId
  classDeclaration : ∀ c, (classDeclaration n).ReadsAt c fun ts s c' => ∀ b word,
    word.kind = .keyword .kwClass → Reads .declaration b c.nextId (word :: ts) s false c'.nextId
  members : ∀ ms ss c, (members n ms ss).ReadsAt c fun ts r c' => ∃ ms' ss',
    r = (ms.reverse ++ ms', ss.reverse ++ ss') ∧
      Reads .members false c.nextId ts (ms', ss') false c'.nextId

lemma noElse_of_closed {rest : List Token} (h : false = true) : NoElse rest :=
  absurd h Bool.false_ne_true

lemma stmtReads (n : ℕ) : StmtReads n := by
  induction n with
  | zero => constructor <;> intros <;> exact readsAt_exhausted
  | succ n ih =>
    constructor
    · intro b c
      rw [Grammar.declaration]
      refine (readsAt_recovering (P := fun ts s c' => ∃ o,
        Reads .declaration b c.nextId ts s o c'.nextId) ?_).mono ?_
      · refine readsAt_peek_bind ?_
        have hstatement : (Grammar.statement n b).ReadsAt c fun ts s c' => ∃ o,
            Reads .declaration b c.nextId ts s o c'.nextId := by
          refine (ih.statement b c).mono ?_
          rintro ts s c' ⟨o, h, -⟩
          exact ⟨o, h.ofStatement⟩
        cases hc : c.rest with
        | nil =>
          simp only [Cursor.front, hc, List.headD_nil, c.stop_kind]
          exact hstatement
        | cons t rest =>
          simp only [Cursor.front, hc, List.headD_cons]
          split
          · rename_i ht
            refine readsAt_advance_bind hc ((ih.classDeclaration _).mono fun ts s c' h => ?_)
            exact ⟨false, h b t ht⟩
          · rename_i ht
            refine readsAt_advance_bind hc (readsAt_map ((ih.function _ _).mono ?_))
            intro ts d c' h
            exact ⟨false, h.funDecl ht⟩
          · rename_i ht
            refine readsAt_advance_bind hc (readsAt_varDeclaration.mono fun ts s c' h => ?_)
            exact ⟨false, .varDecl (h t ht)⟩
          · exact hstatement
      · rintro ts r c' ⟨s, rfl, o, h⟩
        exact ⟨s, o, rfl, h⟩
    · intro b c
      rw [Grammar.statement]
      refine readsAt_peek_bind ?_
      have hexpression : (expressionStatement n).ReadsAt c fun ts s c' => ∃ o,
          Reads .statement b c.nextId ts s o c'.nextId ∧ (o = true → NoElse c'.rest) :=
        readsAt_expressionStatement.mono fun ts s c' h => ⟨false, .exprStmt h, noElse_of_closed⟩
      cases hc : c.rest with
      | nil =>
        simp only [Cursor.front, hc, List.headD_nil, c.stop_kind]
        exact hexpression
      | cons t rest =>
        simp only [Cursor.front, hc, List.headD_cons]
        split
        · rename_i ht
          refine readsAt_advance_bind hc (readsAt_bind readsAt_forHead fun head c₁ => ?_)
          refine readsAt_map ((ih.statement _ _).mono ?_)
          rintro us s c' ⟨o, h, ho⟩ ts hhead
          exact ⟨o, h.forStmt ht hhead, ho⟩
        · rename_i ht
          refine readsAt_advance_bind hc (readsAt_expect_bind fun opening rest hopening => ?_)
          refine readsAt_bind readsAt_expression fun condition c₁ => ?_
          refine readsAt_expect_bind fun closing rest hclosing => ?_
          refine readsAt_bind (ih.statement _ _) fun whenTrue c₂ => ?_
          refine readsAt_accept_bind (fun helse => readsAt_pure ?_) fun word rest hrest hword => ?_
          · rintro us ⟨o, h, -⟩ ts hcond
            refine ⟨true, ?_, fun _ => helse⟩
            simpa using Reads.ifStmt ht (kind_of_isSymbol hopening) hcond
              (kind_of_isSymbol hclosing) h
          · refine readsAt_map ((ih.statement _ _).mono ?_)
            rintro vs s c' ⟨o', h', ho'⟩ us ⟨o, h, ho⟩ ts hcond
            -- an open statement would have taken the `else`
            have hclosed : o = false := by
              by_contra hopen
              have := ho (by simpa using hopen) word (by simp [hrest])
              rw [hword] at this
              exact absurd this (by decide)
            subst hclosed
            refine ⟨o', ?_, ho'⟩
            simpa using Reads.ifElse ht (kind_of_isSymbol hopening) hcond
              (kind_of_isSymbol hclosing) h (kind_of_isKeyword hword) h'
        · rename_i ht
          refine readsAt_advance_bind hc (readsAt_expect_bind fun opening rest hopening => ?_)
          refine readsAt_bind readsAt_expression fun condition c₁ => ?_
          refine readsAt_expect_bind fun closing rest hclosing => ?_
          refine readsAt_map ((ih.statement _ _).mono ?_)
          rintro us s c' ⟨o, h, ho⟩ ts hcond
          refine ⟨o, ?_, ho⟩
          exact h.whileStmt ht (kind_of_isSymbol hopening) hcond (kind_of_isSymbol hclosing)
        · rename_i ht
          refine readsAt_advance_bind hc (readsAt_require_bind fun c₁ _ hid => ?_)
          refine readsAt_expect_bind fun semicolon rest hsemicolon => readsAt_pure fun hb => ?_
          refine ⟨false, ?_, noElse_of_closed⟩
          simpa [hid] using Reads.breakStmt hb ht (kind_of_isSymbol hsemicolon)
        · rename_i ht
          refine readsAt_advance_bind hc (readsAt_bind (readsAt_optExpression _) fun value c₁ => ?_)
          refine readsAt_expect_bind fun semicolon rest hsemicolon => readsAt_pure fun ts h => ?_
          exact ⟨false, .returnStmt ht h (kind_of_isSymbol hsemicolon), noElse_of_closed⟩
        · rename_i ht
          refine readsAt_advance_bind hc (readsAt_map ((ih.block _ _ _).mono ?_))
          rintro _ body c' ⟨us, more, closing, rfl, hclosing, rfl, h⟩
          exact ⟨false, h.block ht hclosing, noElse_of_closed⟩
        · rename_i ht
          refine readsAt_advance_bind hc (readsAt_bind readsAt_expression fun e c₁ => ?_)
          refine readsAt_expect_bind fun semicolon rest hsemicolon => readsAt_pure fun ts h => ?_
          exact ⟨false, .printStmt ht h (kind_of_isSymbol hsemicolon), noElse_of_closed⟩
        · exact hexpression
    · intro b found c
      rw [Grammar.block]
      refine readsAt_atEnd_bind (readsAt_sees_bind fun closing => ?_)
      split
      · refine readsAt_expect_bind fun closing rest hclosing => readsAt_pure ?_
        exact ⟨[], [], closing, rfl, kind_of_isSymbol hclosing, by simp, .nil⟩
      · refine readsAt_bind (ih.declaration _ _) fun r c₁ => (ih.block _ _ _).mono ?_
        rintro _ body c' ⟨us, more, closing, rfl, hclosing, rfl, h⟩ ts ⟨s, o, rfl, hs⟩
        exact ⟨ts ++ us, s :: more, closing, by simp, hclosing, by simp, hs.cons h⟩
    · intro sort c
      rw [Grammar.function]
      refine readsAt_expect_bind fun name rest hname => ?_
      refine readsAt_bind (readsAt_parameters _) fun params c₁ => ?_
      refine readsAt_expect_bind fun opening rest hopening => ?_
      refine readsAt_bind (ih.block _ _ _) fun body c₂ => readsAt_pure ?_
      rintro _ ⟨us, more, closing, rfl, hclosing, rfl, h⟩ ts ⟨hid, hparams⟩
      rw [show c.nextId = c₁.nextId from hid.symm]
      simpa using h.function (kind_of_isIdentifier hname) hparams (kind_of_isSymbol hopening)
        hclosing
    · intro c
      rw [Grammar.classDeclaration]
      refine readsAt_expect_bind fun name rest hname => ?_
      refine readsAt_expect_bind fun opening rest hopening => ?_
      refine readsAt_bind (ih.members _ _ _) fun r c₁ => ?_
      refine readsAt_expect_bind fun closing rest hclosing => readsAt_pure ?_
      rintro ts ⟨ms, ss, rfl, h⟩ b word hword
      exact h.classDecl hword (kind_of_isIdentifier hname) (kind_of_isSymbol hopening)
        (kind_of_isSymbol hclosing)
    · intro ms ss c
      rw [Grammar.members]
      refine readsAt_atEnd_bind (readsAt_sees_bind fun closing => ?_)
      split
      · exact readsAt_pure ⟨[], [], by simp, .noMembers⟩
      · refine readsAt_accept_bind (fun _ => ?_) fun word rest _ hword => ?_
        · refine readsAt_bind (ih.function _ _) fun m c₁ => (ih.members _ _ _).mono ?_
          rintro us r c' ⟨ms', ss', rfl, h⟩ ts hm
          exact ⟨m :: ms', ss', by simp, hm.instanceMethod h⟩
        · refine readsAt_bind (ih.function _ _) fun m c₁ => (ih.members _ _ _).mono ?_
          rintro us r c' ⟨ms', ss', rfl, h⟩ ts hm
          exact ⟨ms', m :: ss', by simp, hm.staticMethod (kind_of_isKeyword hword) h⟩

lemma readsAt_declarations (found : List Stmt) :
    (declarations n found).ReadsAt c fun ts body c' => ∃ more, body = found.reverse ++ more ∧
      c'.rest = [] ∧ Reads .declarations false c.nextId ts more false c'.nextId := by
  induction n generalizing found c with
  | zero => exact readsAt_exhausted
  | succ n ih =>
    rw [declarations]
    refine readsAt_atEnd_bind ?_
    split
    · rename_i hend
      exact readsAt_pure ⟨[], by simp, List.isEmpty_iff.mp hend, .nil⟩
    · refine readsAt_bind ((stmtReads n).declaration _ _) fun r c₁ => (ih _).mono ?_
      rintro us body c' ⟨more, rfl, hend, h⟩ ts ⟨s, o, rfl, hs⟩
      exact ⟨s :: more, by simp, hend, hs.cons h⟩

end Lox.Grammar
