import Lox.Proofs.Scope.Inputs
import Lox.Proofs.Scope.Parts

/-!
Texts without loops.

Where neither `while` nor `for` is written, there is no loop in the tree, nor in any function in it.
-/

namespace Lox

/-- The words that begin a loop. -/
def Token.OpensLoop (t : Token) : Prop := t.kind = .keyword .kwWhile ∨ t.kind = .keyword .kwFor

instance (t : Token) : Decidable t.OpensLoop := inferInstanceAs (Decidable (_ ∨ _))

def Stmt.isLoop : Stmt → Bool
  | .loop .. => true
  | _ => false

/-- Neither the statement nor any statement inside it is a loop. -/
inductive Stmt.Loopless : Stmt → Prop
  | intro {d : Stmt} : d.isLoop = false → (∀ b ∈ d.branches, Loopless b) →
      (∀ b ∈ d.inner, Loopless b) → Loopless d

namespace Stmt.Loopless

variable {d : Stmt}

lemma not_loop {c : Expr} {body : Stmt} : ¬(loop c body).Loopless := by
  rintro ⟨h, -, -⟩
  exact absurd h Bool.noConfusion

lemma of_leaf (h : d.isLoop = false) (hb : d.branches = []) (hi : d.inner = []) : d.Loopless :=
  .intro h (hb ▸ List.forall_mem_nil _) (hi ▸ List.forall_mem_nil _)

lemma branches (h : d.Loopless) : ∀ b ∈ d.branches, b.Loopless := by
  obtain ⟨-, h, -⟩ := h
  exact h

lemma inner (h : d.Loopless) : ∀ b ∈ d.inner, b.Loopless := by
  obtain ⟨-, -, h⟩ := h
  exact h

end Stmt.Loopless

namespace Grammar

/-- What is without loops of a nonterminal. -/
def Nonterminal.Loopless : (q : Nonterminal) → q.Tree → Prop
  | declarations, body => ∀ s ∈ body, s.Loopless
  | declaration, s => s.Loopless
  | statement, s => s.Loopless
  | function _, d => ∀ s ∈ d.body, s.Loopless
  | members, (methods, statics) => ∀ m ∈ methods ++ statics, ∀ s ∈ m.body, s.Loopless

lemma VarDecl.loopless {d : Stmt} {ts : List Token} (h : VarDecl d ts) : d.Loopless := by
  cases h <;> exact .of_leaf rfl rfl rfl

lemma ExprStmt.loopless {d : Stmt} {ts : List Token} (h : ExprStmt d ts) : d.Loopless := by
  cases h
  exact .of_leaf rfl rfl rfl

/-- A tree that derives from tokens none of which begins a loop has no loop in it. -/
lemma Derives.loopless {strict o : Bool} {q : Nonterminal} {x : q.Tree} {ts : List Token}
    (h : Derives strict q x o ts) (hts : ∀ t ∈ ts, ¬t.OpensLoop) : q.Loopless x := by
  induction h with
  | nil => exact List.forall_mem_nil _
  | cons _ _ ih ih' =>
    obtain ⟨hts, hus⟩ := List.forall_mem_append.mp hts
    exact List.forall_mem_cons.mpr ⟨ih hts, ih' hus⟩
  | classDecl _ _ _ _ _ ih =>
    refine .intro rfl (List.forall_mem_nil _) ?_
    have hmembers := ih fun t ht => hts t (by simp [ht])
    simp only [Stmt.inner, List.mem_flatMap]
    rintro b ⟨m, hm, hb⟩
    exact hmembers m hm b hb
  | funDecl _ _ ih => exact .intro rfl (List.forall_mem_nil _) (ih fun t ht => hts t (by simp [ht]))
  | varDecl h => exact h.loopless
  | ofStatement _ ih => exact ih hts
  | noMembers => exact List.forall_mem_nil _
  | instanceMethod _ _ ih ih' =>
    obtain ⟨hts, hus⟩ := List.forall_mem_append.mp hts
    exact List.forall_mem_cons.mpr ⟨ih hts, ih' hus⟩
  | staticMethod _ _ _ ih ih' =>
    obtain ⟨hts, hus⟩ := List.forall_mem_append.mp (List.forall_mem_cons.mp hts).2
    obtain ⟨hmethods, hstatics⟩ := List.forall_mem_append.mp (ih' hus)
    exact List.forall_mem_append.mpr ⟨hmethods, List.forall_mem_cons.mpr ⟨ih hts, hstatics⟩⟩
  | function _ _ _ _ _ _ _ ih => exact ih fun t ht => hts t (by simp [ht])
  | getter _ _ _ _ ih => exact ih fun t ht => hts t (by simp [ht])
  | exprStmt h => exact h.loopless
  | ifStmt _ _ _ _ _ ih =>
    refine .intro rfl ?_ (List.forall_mem_nil _)
    exact List.forall_mem_singleton.mpr (ih fun t ht => hts t (by simp [ht]))
  | ifElse _ _ _ _ _ _ _ _ ih ih' =>
    have ht := ih fun t ht => hts t (by simp [ht])
    have he := ih' fun t ht => hts t (by simp [ht])
    exact .intro rfl (List.forall_mem_cons.mpr ⟨ht, List.forall_mem_singleton.mpr he⟩)
      (List.forall_mem_nil _)
  | whileStmt hword => exact absurd (.inl hword) (hts _ (List.mem_cons_self ..))
  | forStmt hword => exact absurd (.inr hword) (hts _ (List.mem_cons_self ..))
  | block _ _ _ ih => exact .intro rfl (List.forall_mem_nil _) (ih fun t ht => hts t (by simp [ht]))
  | _ => exact .of_leaf rfl rfl rfl

end Grammar

namespace Scope

/-- A text in which no word begins a loop. -/
def LooplessText (source : String) : Prop := ∀ t ∈ Source.tokens source, ¬t.OpensLoop

instance (source : String) : Decidable (LooplessText source) :=
  inferInstanceAs (Decidable (∀ t ∈ Source.tokens source, ¬t.OpensLoop))

/-- An input without loops. -/
def LooplessInput (input : Grammar.Input) : Prop := ∀ d ∈ bodyOf input, d.Loopless

lemma looplessInput_program {tokens : List Token} {firstId : NodeId} {body : List Stmt}
    (hts : ∀ t ∈ tokens, ¬t.OpensLoop)
    (h : (Grammar.program tokens firstId).result = .ok body) :
    LooplessInput (.statements body) :=
  (Grammar.program_sound h).derives.loopless fun t ht =>
    hts t ((List.takeWhile_sublist _).mem ht)

/-- A text without loops is read as an input without loops. -/
lemma looplessInput_read {mode : Grammar.Mode} {source : String} {firstId : NodeId}
    {input : Grammar.Input} (hts : LooplessText source)
    (h : (Grammar.read mode source firstId).result = .ok input) : LooplessInput input := by
  have hinput := inputOf_of_read h
  cases mode with
  | program =>
    obtain ⟨body, hbody, rfl⟩ := result_map_eq_ok hinput
    exact looplessInput_program hts hbody
  | expression =>
    obtain ⟨e, -, rfl⟩ := result_map_eq_ok hinput
    exact nofun
  | line =>
    rw [Grammar.inputOf] at hinput
    rcases Grammar.line_cases (Source.tokens source) firstId with hline | ⟨id, -, hline⟩
    · rw [hline] at hinput
      obtain ⟨e, -, rfl⟩ := result_map_eq_ok hinput
      exact nofun
    · rw [hline] at hinput
      obtain ⟨body, hbody, rfl⟩ := result_map_eq_ok hinput
      exact looplessInput_program hts hbody

/-! ### Where a survey comes -/

/-- There is no loop in a node. -/
def Node.Loopless : Node → Prop
  | expr _ => True
  | exprs _ => True
  | stmt d => d.Loopless
  | stmts body => ∀ d ∈ body, d.Loopless
  | function _ d => ∀ b ∈ d.body, b.Loopless
  | methods ds => ∀ d ∈ ds, ∀ b ∈ d.body, b.Loopless
  | statics ds => ∀ d ∈ ds, ∀ b ∈ d.body, b.Loopless

lemma Inside.loopless {n m : Node} {ctx ctx' : Context} {s s' : Survey} {xs : List Region}
    (h : Inside n ctx s xs m ctx' s') (hn : n.Loopless) : m.Loopless := by
  have hmembers : ∀ {name : Token} {ms ss : List FunctionDecl},
      (Stmt.classDecl name ms ss).Loopless → ∀ d ∈ ms ++ ss, ∀ b ∈ d.body, b.Loopless :=
    fun h d hd b hb => h.inner b (List.mem_flatMap.mpr ⟨d, hd, hb⟩)
  cases h with
  | parts => trivial
  | firstExpr => trivial
  | laterExprs => trivial
  | heads => trivial
  | returned => trivial
  | initial => trivial
  | branches => exact Stmt.Loopless.branches hn
  | block => exact Stmt.Loopless.inner hn
  | function => exact Stmt.Loopless.inner hn
  | methods => exact fun d hd => hmembers hn d (List.mem_append_left _ hd)
  | statics => exact fun d hd => hmembers hn d (List.mem_append_right _ hd)
  | firstStmt => exact hn _ (List.mem_cons_self ..)
  | laterStmts => exact fun d hd => hn d (List.mem_cons_of_mem _ hd)
  | body => exact hn
  | firstMethod => exact hn _ (List.mem_cons_self ..)
  | laterMethods => exact fun d hd => hn d (List.mem_cons_of_mem _ hd)
  | firstStatic => exact hn _ (List.mem_cons_self ..)
  | laterStatics => exact fun d hd => hn d (List.mem_cons_of_mem _ hd)

/-- A survey of inputs without loops comes to no loop. -/
lemma Visited.loopless {inputs : List Grammar.Input}
    (hinputs : ∀ input ∈ inputs, LooplessInput input)
    {xs : List Region} {n : Node} {ctx : Context} {s : Survey} (h : Visited inputs xs n ctx s) :
    n.Loopless := by
  induction h with
  | @root input hinput =>
    cases input with
    | expression e => trivial
    | statements body => exact hinputs _ hinput
  | inside _ hin ih => exact hin.loopless ih

end Scope

end Lox
