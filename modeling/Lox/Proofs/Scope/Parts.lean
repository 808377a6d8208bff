import Lox.Proofs.Scope.Visits

/-!
Statements that run as parts of others, in the same call.

A `break` that is part of a statement stands in a loop inside it or leaves a loop around it; in an
accepted input no function body is left by a `break`, and only functions are left by a `return`.
-/

namespace Lox

/-- A statement that runs as part of another, in the same call; with `loops`, also one that runs
once for each round of a loop there. -/
inductive Stmt.Part (loops : Bool) (a : Stmt) : Stmt → Prop
  | refl : Part loops a a
  | branch {c t e b} : b ∈ t :: e.toList → Part loops a b → Part loops a (.branch c t e)
  | block {body b} : b ∈ body → Part loops a b → Part loops a (.block body)
  | loop {c body} : loops → Part loops a body → Part loops a (.loop c body)

namespace Stmt.Part

variable {loops : Bool} {a b d : Stmt}

lemma trans (h : Part loops a b) (h' : Part loops b d) : Part loops a d := by
  induction h' with
  | refl => exact h
  | branch hb _ ih => exact .branch hb ih
  | block hb _ ih => exact .block hb ih
  | loop hl _ ih => exact .loop hl ih

lemma in_loops (h : Part loops a b) : Part true a b := by
  induction h with
  | refl => exact .refl
  | branch hb _ ih => exact .branch hb ih
  | block hb _ ih => exact .block hb ih
  | loop _ _ ih => exact .loop rfl ih

/-- What stands in no loop is no `break`. -/
lemma not_break (h : Part false a d) (hd : Grammar.Admissible false d) {keyword : Token} :
    a ≠ .breakLoop keyword := by
  induction h with
  | refl =>
    rintro rfl
    cases hd
  | branch hb _ ih =>
    obtain ⟨-, ht, he⟩ := Grammar.admissible_branch.mp hd
    rcases List.mem_cons.mp hb with rfl | hb
    · exact ih ht
    · exact ih (he _ (Option.mem_toList.mp hb))
  | block hb _ ih => exact ih (Grammar.admissible_block.mp hd _ hb)
  | loop hl => cases hl

end Stmt.Part

namespace Scope

variable {inputs : List Grammar.Input} {xs : List Region} {ctx : Context} {s : Survey}

/-- Each `break` in a function stands in a loop there. -/
def Node.Admissible : Node → Prop
  | expr _ => True
  | exprs _ => True
  | stmt d => Grammar.Admissible true d
  | stmts body => ∀ d ∈ body, Grammar.Admissible true d
  | function _ d => Grammar.AdmissibleDecl d
  | methods ds => ∀ d ∈ ds, Grammar.AdmissibleDecl d
  | statics ds => ∀ d ∈ ds, Grammar.AdmissibleDecl d

lemma Inside.admissible {n m : Node} {ctx' : Context} {s' : Survey}
    (h : Inside n ctx s xs m ctx' s') (hn : n.Admissible) : m.Admissible := by
  cases h with
  | parts => trivial
  | firstExpr => trivial
  | laterExprs => trivial
  | heads => trivial
  | returned => trivial
  | initial => trivial
  | @branches d _ _ hd =>
    cases d with
    | branch c t e =>
      obtain ⟨-, ht, he⟩ := Grammar.admissible_branch.mp hn
      exact List.forall_mem_cons.mpr ⟨ht, fun b hb => he b (Option.mem_toList.mp hb)⟩
    | loop c body => exact List.forall_mem_singleton.mpr (Grammar.admissible_loop.mp hn).2
    | _ => exact absurd rfl hd
  | block => exact Grammar.admissible_block.mp hn
  | function => exact Grammar.admissible_function.mp hn
  | methods => exact (Grammar.admissible_classDecl.mp hn).1
  | statics => exact (Grammar.admissible_classDecl.mp hn).2
  | firstStmt => exact hn _ (List.mem_cons_self ..)
  | laterStmts => exact fun d hd => hn d (List.mem_cons_of_mem _ hd)
  | body => exact fun b hb => (hn.2 b hb).in_loop
  | firstMethod => exact hn _ (List.mem_cons_self ..)
  | laterMethods => exact fun d hd => hn d (List.mem_cons_of_mem _ hd)
  | firstStatic => exact hn _ (List.mem_cons_self ..)
  | laterStatics => exact fun d hd => hn d (List.mem_cons_of_mem _ hd)

lemma Visited.admissible (hinputs : ∀ input ∈ inputs, Accepted input) {n : Node}
    (h : Visited inputs xs n ctx s) : n.Admissible := by
  induction h with
  | @root input hinput =>
    have hbody := (hinputs input hinput).admissible
    cases input with
    | expression e => trivial
    | statements body => exact fun d hd => (hbody d hd).in_loop
  | inside _ hin ih => exact hin.admissible ih

/-- The survey comes to each statement of a body in the same context. -/
lemma Visited.each {body : List Stmt} (h : Visited inputs xs (.stmts body) ctx s) :
    ∀ d ∈ body, ∃ s', Visited inputs xs (.stmt d) ctx s' := by
  induction body generalizing s with
  | nil => exact fun d hd => absurd hd List.not_mem_nil
  | cons d ds ih =>
    exact List.forall_mem_cons.mpr ⟨⟨s, h.inside .firstStmt⟩, ih (h.inside .laterStmts)⟩

/-- The survey comes to each part of a statement in the same context. -/
lemma Visited.part {a d : Stmt} (hpart : a.Part true d) (h : Visited inputs xs (.stmt d) ctx s) :
    ∃ xs' s', Visited inputs xs' (.stmt a) ctx s' := by
  induction hpart generalizing xs s with
  | refl => exact ⟨xs, s, h⟩
  | @branch c t e b hb _ ih =>
    obtain ⟨s', h'⟩ := (h.inside (.branches (d := .branch c t e) (List.cons_ne_nil _ _))).each b hb
    exact ih h'
  | @block body b hb _ ih =>
    obtain ⟨s', h'⟩ := (h.inside .block).each b hb
    exact ih h'
  | @loop c body _ _ ih =>
    obtain ⟨s', h'⟩ := (h.inside (.branches (d := .loop c body) (List.cons_ne_nil _ _))).each body
      (List.mem_singleton_self body)
    exact ih h'

/-- No `return` stands outside of all functions. -/
lemma not_return_of_part (hinputs : ∀ input ∈ inputs, Accepted input) {input : Grammar.Input}
    (hinput : input ∈ inputs) {a d : Stmt} (hd : d ∈ bodyOf input) (hpart : a.Part true d)
    {keyword : Token} {value : Option Expr} : a ≠ .returnFrom keyword value := by
  rintro rfl
  cases input with
  | expression e => cases hd
  | statements body =>
    obtain ⟨s, hv⟩ := (Visited.root hinput).each d hd
    obtain ⟨xs, s', hv'⟩ := hv.part hpart
    have hclean := (hv'.sound hinputs).clean
    have hplace : (s'.returnPlace .outermost keyword value).Clean := by
      cases value with
      | none => exact hclean
      | some e => exact (Survey.leads_expr .outermost e _).clean hclean
    have hcomplain : (s'.complain keyword .returnFromTopLevel).Clean := hplace
    exact Survey.not_clean_complain hcomplain

end Scope

end Lox
