import Lox.Proofs.Scope.Spelling

/-!
No variable is called `this`.

The word `this` is reserved, so whatever is read from a text declares no function, class, parameter
or variable of that name, and assigns to none.
-/

namespace Lox

/-- The variable that an expression itself assigns to. -/
def Expr.assigned? : Expr → Option Token
  | assign _ name _ => some name
  | _ => none

/-- Nothing in the expression assigns to `this`. -/
inductive Expr.Named : Expr → Prop
  | intro {e : Expr} : (∀ p ∈ e.parts, Named p) →
      (∀ name ∈ e.assigned?, name.lexeme ≠ "this") → Named e

/-- Nothing in the statement is called `this`, or assigns to it. -/
inductive Stmt.Named : Stmt → Prop
  | intro {d : Stmt} : (∀ t ∈ d.given, t.lexeme ≠ "this") → (∀ e ∈ d.exprs, e.Named) →
      (∀ b ∈ d.branches, Named b) → (∀ b ∈ d.inner, Named b) → Named d

/-- Nothing in the function is called `this`, or assigns to it. -/
structure FunctionDecl.Named (d : FunctionDecl) : Prop where
  params : ∀ p ∈ d.paramList, p.lexeme ≠ "this"
  body : ∀ b ∈ d.body, b.Named

lemma Expr.Named.part {e p : Expr} (h : e.Named) (hp : p ∈ e.parts) : p.Named := by
  obtain ⟨h, -⟩ := h
  exact h p hp

lemma Expr.named_of_parts {e : Expr} (h : ∀ p ∈ e.parts, p.Named) (he : e.assigned? = none) :
    e.Named :=
  .intro h (he ▸ nofun)

namespace Stmt.Named

variable {d : Stmt}

lemma given (h : d.Named) : ∀ t ∈ d.given, t.lexeme ≠ "this" := by
  obtain ⟨h, -, -, -⟩ := h
  exact h

lemma exprs (h : d.Named) : ∀ e ∈ d.exprs, e.Named := by
  obtain ⟨-, h, -, -⟩ := h
  exact h

lemma branches (h : d.Named) : ∀ b ∈ d.branches, b.Named := by
  obtain ⟨-, -, h, -⟩ := h
  exact h

lemma inner (h : d.Named) : ∀ b ∈ d.inner, b.Named := by
  obtain ⟨-, -, -, h⟩ := h
  exact h

lemma declared (h : d.Named) {name : Token} (hd : d.declared? = some name) :
    name.lexeme ≠ "this" := by
  refine h.given name ?_
  cases d <;> cases hd <;> exact List.mem_cons_self ..

lemma function {d : FunctionDecl} (h : (Stmt.function d).Named) : d.Named :=
  ⟨fun p hp => h.given p (List.mem_cons_of_mem _ hp), h.inner⟩

lemma member {t : Token} {ms ss : List FunctionDecl} (h : (Stmt.classDecl t ms ss).Named)
    {d : FunctionDecl} (hd : d ∈ ms ++ ss) : d.Named :=
  ⟨fun p hp => h.given p (List.mem_cons_of_mem _ (List.mem_flatMap.mpr ⟨d, hd, hp⟩)),
    fun b hb => h.inner b (List.mem_flatMap.mpr ⟨d, hd, hb⟩)⟩

end Stmt.Named

namespace Grammar

/-! ### What is read -/

lemma At.named {l : Level} {e : Expr} (h : At l e) (ht : ∀ t, .token t ∈ e.yield → t.Worded) :
    e.Named := by
  have parts : ∀ {e p : Expr}, p ∈ e.parts → (∀ t, .token t ∈ e.yield → t.Worded) →
      ((∀ t, .token t ∈ p.yield → t.Worded) → p.Named) → p.Named :=
    fun hp ht ih => ih fun t hm => ht t (mem_yield_of_mem_parts hp hm)
  induction h with
  | tighter _ _ ih => exact ih ht
  | call _ _ _ ih ihs =>
    refine Expr.named_of_parts (fun p hp => parts hp ht ?_) rfl
    rcases List.mem_cons.mp hp with rfl | hp
    · exact ih
    · exact ihs p hp
  | @assign id name value hname _ ih =>
    refine .intro (fun p hp => parts hp ht ?_) ?_
    · rw [List.mem_singleton.mp hp]
      exact ih
    · rintro _ ⟨⟩
      exact (ht name (by simp [Expr.yield])).lexeme_ne_this hname
  | literal => exact Expr.named_of_parts (List.forall_mem_nil _) rfl
  | reference => exact Expr.named_of_parts (List.forall_mem_nil _) rfl
  | this => exact Expr.named_of_parts (List.forall_mem_nil _) rfl
  | _ =>
    refine Expr.named_of_parts (fun p hp => parts hp ht ?_) rfl
    simp only [Expr.parts, List.mem_cons, List.not_mem_nil, or_false] at hp
    rcases hp with rfl | rfl | rfl <;> assumption

/-- Nothing in a tree of a nonterminal is called `this`. -/
def Nonterminal.Named : (q : Nonterminal) → q.Tree → Prop
  | declarations, body => ∀ d ∈ body, d.Named
  | declaration, d => d.Named
  | statement, d => d.Named
  | function _, d => d.name.lexeme ≠ "this" ∧ d.Named
  | members, (methods, statics) => ∀ d ∈ methods ++ statics, d.Named

/-- The tokens keep words and names apart. -/
abbrev AllWorded (ts : List Token) : Prop := ∀ t ∈ ts, t.Worded

lemma Expression.named {e : Expr} {ts : List Token} (h : Expression e ts) (hts : AllWorded ts) :
    e.Named := by
  refine h.1.named fun t ht => ?_
  obtain ⟨u, hu, hfits⟩ := h.2.exists_token ht
  obtain rfl : u = t := hfits
  exact hts u hu

lemma OptExpression.named {e : Option Expr} {ts : List Token} (h : OptExpression e ts)
    (hts : AllWorded ts) : ∀ e' ∈ e, e'.Named := by
  cases h with
  | none => exact nofun
  | some he =>
    rintro _ ⟨⟩
    exact he.named hts

lemma Names.ne_this {names ts : List Token} (h : Names names ts) (hts : AllWorded ts) :
    ∀ t ∈ names, t.lexeme ≠ "this" := by
  intro t ht
  obtain ⟨u, hu, hfits⟩ := h.2.exists_token (mem_intersperse (List.mem_map_of_mem ht))
  obtain rfl : u = t := hfits
  exact (hts u hu).lexeme_ne_this (h.1 u ht)

lemma VarDecl.named {d : Stmt} {ts : List Token} (h : VarDecl d ts) (hts : AllWorded ts) :
    d.Named := by
  cases h with
  | bare _ hname =>
    refine .intro ?_ nofun nofun nofun
    exact List.forall_mem_singleton.mpr ((hts _ (by simp)).lexeme_ne_this hname)
  | initialized _ hname _ he =>
    refine .intro ?_ ?_ nofun nofun
    · exact List.forall_mem_singleton.mpr ((hts _ (by simp)).lexeme_ne_this hname)
    · exact List.forall_mem_singleton.mpr (he.named fun t ht => hts t (by simp [ht]))

lemma named_expression {e : Expr} (he : e.Named) : (Stmt.expression e).Named :=
  .intro nofun (List.forall_mem_singleton.mpr he) nofun nofun

lemma ExprStmt.named {d : Stmt} {ts : List Token} (h : ExprStmt d ts) (hts : AllWorded ts) :
    d.Named := by
  cases h with
  | intro he => exact named_expression (he.named fun t ht => hts t (by simp [ht]))

lemma ForFirst.named {d : Option Stmt} {ts : List Token} (h : ForFirst d ts)
    (hts : AllWorded ts) : ∀ d' ∈ d, d'.Named := by
  cases h with
  | var h =>
    rintro _ ⟨⟩
    exact h.named hts
  | expression h =>
    rintro _ ⟨⟩
    exact h.named hts
  | none => exact nofun

lemma named_block {body : List Stmt} (h : ∀ d ∈ body, d.Named) : (Stmt.block body).Named :=
  .intro nofun nofun nofun h

lemma named_loop {c : Expr} {body : Stmt} (hc : c.Named) (hbody : body.Named) :
    (Stmt.loop c body).Named :=
  .intro nofun (List.forall_mem_singleton.mpr hc) (List.forall_mem_singleton.mpr hbody) nofun

lemma named_forLoop {first : Option Stmt} {condition increment : Option Expr} {body : Stmt}
    (hfirst : ∀ d ∈ first, d.Named) (hcondition : ∀ e ∈ condition, e.Named)
    (hincrement : ∀ e ∈ increment, e.Named) (hbody : body.Named) :
    (forLoop first condition increment body).Named := by
  have htrue : (Expr.literal (.boolean true)).Named := Expr.named_of_parts nofun rfl
  have hround : ∀ e ∈ increment, (Stmt.block [body, .expression e]).Named := fun e he =>
    named_block (List.forall_mem_cons.mpr
      ⟨hbody, List.forall_mem_singleton.mpr (named_expression (hincrement e he))⟩)
  have hinside : ∀ d ∈ first, ∀ rounds : Stmt, rounds.Named → (Stmt.block [d, rounds]).Named :=
    fun d hd rounds h =>
      named_block (List.forall_mem_cons.mpr ⟨hfirst d hd, List.forall_mem_singleton.mpr h⟩)
  unfold forLoop
  cases first <;> cases condition <;> cases increment <;> dsimp only
  all_goals
    first
    | refine hinside _ rfl _ (named_loop ?_ ?_)
    | refine named_loop ?_ ?_
    · first | exact htrue | exact hcondition _ rfl
    · first | exact hbody | exact hround _ rfl

/-- What derives from the tokens of a text has nothing in it that is called `this`. -/
lemma Derives.named {strict o : Bool} {q : Nonterminal} {x : q.Tree} {ts : List Token}
    (h : Derives strict q x o ts) (hts : AllWorded ts) : q.Named x := by
  induction h with
  | nil => exact List.forall_mem_nil _
  | cons _ _ ih ih' =>
    obtain ⟨hts, hus⟩ := List.forall_mem_append.mp hts
    exact List.forall_mem_cons.mpr ⟨ih hts, ih' hus⟩
  | classDecl _ hname _ _ _ ih =>
    have hmembers := ih fun t ht => hts t (by simp [ht])
    refine .intro ?_ nofun nofun ?_
    · refine List.forall_mem_cons.mpr ⟨(hts _ (by simp)).lexeme_ne_this hname, fun t ht => ?_⟩
      obtain ⟨d, hd, ht⟩ := List.mem_flatMap.mp ht
      exact (hmembers d hd).params t ht
    · intro b hb
      obtain ⟨d, hd, hb⟩ := List.mem_flatMap.mp hb
      exact (hmembers d hd).body b hb
  | funDecl _ _ ih =>
    obtain ⟨hname, hd⟩ := ih fun t ht => hts t (by simp [ht])
    exact .intro (List.forall_mem_cons.mpr ⟨hname, hd.params⟩) nofun nofun hd.body
  | varDecl h => exact h.named hts
  | ofStatement _ ih => exact ih hts
  | noMembers => exact List.forall_mem_nil _
  | instanceMethod _ _ ih ih' =>
    obtain ⟨hts, hus⟩ := List.forall_mem_append.mp hts
    exact List.forall_mem_cons.mpr ⟨(ih hts).2, ih' hus⟩
  | staticMethod _ _ _ ih ih' =>
    obtain ⟨hts, hus⟩ := List.forall_mem_append.mp (List.forall_mem_cons.mp hts).2
    obtain ⟨hmethods, hstatics⟩ := List.forall_mem_append.mp (ih' hus)
    exact List.forall_mem_append.mpr ⟨hmethods, List.forall_mem_cons.mpr ⟨(ih hts).2, hstatics⟩⟩
  | function hname _ hparams _ _ _ _ ih =>
    have hne := (hts _ (List.mem_cons_self ..)).lexeme_ne_this hname
    refine ⟨hne, ?_, ih fun t ht => hts t (by simp [ht])⟩
    exact hparams.ne_this fun t ht => hts t (by simp [ht])
  | getter hname _ _ _ ih =>
    have hne := (hts _ (List.mem_cons_self ..)).lexeme_ne_this hname
    exact ⟨hne, List.forall_mem_nil _, ih fun t ht => hts t (by simp [ht])⟩
  | exprStmt h => exact h.named hts
  | printStmt _ he _ =>
    refine .intro nofun ?_ nofun nofun
    exact List.forall_mem_singleton.mpr (he.named fun t ht => hts t (by simp [ht]))
  | ifStmt _ _ hc _ _ ih =>
    refine .intro nofun ?_ ?_ nofun
    · exact List.forall_mem_singleton.mpr (hc.named fun t ht => hts t (by simp [ht]))
    · exact List.forall_mem_singleton.mpr (ih fun t ht => hts t (by simp [ht]))
  | ifElse _ _ hc _ _ _ _ _ ih ih' =>
    have ht := ih fun t ht => hts t (by simp [ht])
    have he := ih' fun t ht => hts t (by simp [ht])
    refine .intro nofun ?_ ?_ nofun
    · exact List.forall_mem_singleton.mpr (hc.named fun t ht => hts t (by simp [ht]))
    · exact List.forall_mem_cons.mpr ⟨ht, List.forall_mem_singleton.mpr he⟩
  | whileStmt _ _ hc _ _ ih =>
    exact named_loop (hc.named fun t ht => hts t (by simp [ht]))
      (ih fun t ht => hts t (by simp [ht]))
  | forStmt _ _ hfirst hcondition _ hincrement _ _ ih =>
    refine named_forLoop ?_ ?_ ?_ (ih fun t ht => hts t (by simp [ht]))
    · exact hfirst.named fun t ht => hts t (by simp [ht])
    · exact hcondition.named fun t ht => hts t (by simp [ht])
    · exact hincrement.named fun t ht => hts t (by simp [ht])
  | breakStmt => exact .intro nofun nofun nofun nofun
  | returnStmt _ he _ =>
    refine .intro nofun (fun e hmem => ?_) nofun nofun
    exact he.named (fun t ht => hts t (by simp [ht])) e (Option.mem_toList.mp hmem)
  | block _ _ _ ih => exact named_block (ih fun t ht => hts t (by simp [ht]))

end Grammar

namespace Scope

open Grammar

/-- Nothing in a node is called `this`. -/
def Node.Named : Node → Prop
  | expr e => e.Named
  | exprs es => ∀ e ∈ es, e.Named
  | stmt d => d.Named
  | stmts body => ∀ d ∈ body, d.Named
  | function _ d => d.Named
  | methods ds => ∀ d ∈ ds, d.Named
  | statics ds => ∀ d ∈ ds, d.Named

lemma named_program {tokens : List Token} {firstId : NodeId} {body : List Stmt}
    (hts : AllWorded (beforeEnd tokens)) (h : (program tokens firstId).result = .ok body) :
    (rootOf (.statements body)).Named :=
  (program_sound h).derives.named hts

lemma named_singleExpression {tokens : List Token} {firstId : NodeId} {e : Expr}
    (hts : AllWorded (beforeEnd tokens))
    (h : (singleExpression tokens firstId).result = .ok e) : (rootOf (.expression e)).Named :=
  (singleExpression_sound h).derives.named hts

/-- Nothing that is read from a text is called `this`. -/
theorem named_read {mode : Mode} {source : String} {firstId : NodeId} {input : Input}
    (h : (read mode source firstId).result = .ok input) : (rootOf input).Named := by
  have hinput := inputOf_of_read h
  have hts : AllWorded (beforeEnd (Source.tokens source)) := worded_beforeEnd
  cases mode with
  | program =>
    obtain ⟨body, hbody, rfl⟩ := result_map_eq_ok hinput
    exact named_program hts hbody
  | expression =>
    obtain ⟨e, he, rfl⟩ := result_map_eq_ok hinput
    exact named_singleExpression hts he
  | line =>
    rw [inputOf] at hinput
    rcases line_cases (Source.tokens source) firstId with hline | ⟨id, -, hline⟩
    · rw [hline] at hinput
      obtain ⟨e, he, rfl⟩ := result_map_eq_ok hinput
      exact named_singleExpression hts he
    · rw [hline] at hinput
      obtain ⟨body, hbody, rfl⟩ := result_map_eq_ok hinput
      exact named_program hts hbody

/-! ### Where a survey comes -/

lemma Inside.named {n m : Node} {ctx ctx' : Context} {s s' : Survey} {xs : List Region}
    (h : Inside n ctx s xs m ctx' s') (hn : n.Named) : m.Named := by
  cases h with
  | parts => exact fun p hp => Expr.Named.part hn hp
  | firstExpr => exact hn _ (List.mem_cons_self ..)
  | laterExprs => exact fun e he => hn e (List.mem_cons_of_mem _ he)
  | @heads d _ _ hd =>
    intro e he
    refine Stmt.Named.exprs hn e ?_
    cases d <;> first | exact he | exact absurd rfl hd
  | returned => exact Stmt.Named.exprs hn _ (List.mem_singleton_self _)
  | initial => exact Stmt.Named.exprs hn _ (List.mem_singleton_self _)
  | branches => exact Stmt.Named.branches hn
  | block => exact Stmt.Named.inner hn
  | function => exact Stmt.Named.function hn
  | methods => exact fun d hd => Stmt.Named.member hn (List.mem_append_left _ hd)
  | statics => exact fun d hd => Stmt.Named.member hn (List.mem_append_right _ hd)
  | firstStmt => exact hn _ (List.mem_cons_self ..)
  | laterStmts => exact fun d hd => hn d (List.mem_cons_of_mem _ hd)
  | body => exact FunctionDecl.Named.body hn
  | firstMethod => exact hn _ (List.mem_cons_self ..)
  | laterMethods => exact fun d hd => hn d (List.mem_cons_of_mem _ hd)
  | firstStatic => exact hn _ (List.mem_cons_self ..)
  | laterStatics => exact fun d hd => hn d (List.mem_cons_of_mem _ hd)

lemma Visited.named {inputs : List Input} (hinputs : ∀ input ∈ inputs, (rootOf input).Named)
    {xs : List Region} {n : Node} {ctx : Context} {s : Survey} (h : Visited inputs xs n ctx s) :
    n.Named := by
  induction h with
  | root hinput => exact hinputs _ hinput
  | inside _ hin ih => exact hin.named ih

end Scope

end Lox
