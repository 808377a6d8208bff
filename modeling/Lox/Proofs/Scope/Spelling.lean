import Lox.Proofs.Scope.Inputs
import Lox.Proofs.Scope.Renaming

/-!
Names that no token of a text has.

All that a tree names is a token of the text it was read from.
-/

namespace Lox

variable {name : String}

/-- None of the tokens is written like this. -/
abbrev Unspelled (name : String) (ts : List Token) : Prop := ∀ t ∈ ts, t.lexeme ≠ name

namespace Grammar

open Stmt

/-- The name stands nowhere in a tree of a nonterminal. -/
def Nonterminal.Avoids (name : String) : (q : Nonterminal) → q.Tree → Prop
  | declarations, body => ∀ d ∈ body, d.Avoids name
  | declaration, d => d.Avoids name
  | statement, d => d.Avoids name
  | function _, d => d.name.lexeme ≠ name ∧ d.Avoids name
  | members, (methods, statics) => ∀ d ∈ methods ++ statics, d.Avoids name

lemma Expression.avoids {e : Expr} {ts : List Token} (h : Expression e ts)
    (hts : Unspelled name ts) : e.Avoids name := by
  intro t ht
  obtain ⟨t', ht', rfl⟩ := h.2.exists_token ht
  exact hts t' ht'

lemma OptExpression.avoids {e : Option Expr} {ts : List Token} (h : OptExpression e ts)
    (hts : Unspelled name ts) : ∀ e' ∈ e, e'.Avoids name := by
  cases h with
  | none => exact nofun
  | some he =>
    rintro _ ⟨⟩
    exact he.avoids hts

lemma mem_intersperse {m sep : Mark} {marks : List Mark} (h : m ∈ marks) :
    m ∈ marks.intersperse sep := by
  induction marks with
  | nil => exact h
  | cons a marks ih =>
    cases marks with
    | nil => exact h
    | cons b marks =>
      rcases List.mem_cons.mp h with rfl | h
      · exact List.mem_cons_self ..
      · exact List.mem_cons_of_mem _ (List.mem_cons_of_mem _ (ih h))

lemma Names.unspelled {names ts : List Token} (h : Names names ts) (hts : Unspelled name ts) :
    Unspelled name names := by
  intro t ht
  obtain ⟨t', ht', rfl⟩ := h.2.exists_token (mem_intersperse (List.mem_map_of_mem ht))
  exact hts t' ht'

lemma VarDecl.avoids {d : Stmt} {ts : List Token} (h : VarDecl d ts) (hts : Unspelled name ts) :
    d.Avoids name := by
  cases h with
  | bare =>
    refine .intro ?_ nofun nofun nofun
    exact List.forall_mem_singleton.mpr (hts _ (by simp))
  | initialized _ _ _ he =>
    refine .intro ?_ ?_ nofun nofun
    · exact List.forall_mem_singleton.mpr (hts _ (by simp))
    · exact List.forall_mem_singleton.mpr (he.avoids fun t ht => hts t (by simp [ht]))

lemma avoids_expression {e : Expr} (he : e.Avoids name) : (Stmt.expression e).Avoids name :=
  .intro nofun (List.forall_mem_singleton.mpr he) nofun nofun

lemma ExprStmt.avoids {d : Stmt} {ts : List Token} (h : ExprStmt d ts) (hts : Unspelled name ts) :
    d.Avoids name := by
  cases h with
  | intro he => exact avoids_expression (he.avoids fun t ht => hts t (by simp [ht]))

lemma ForFirst.avoids {d : Option Stmt} {ts : List Token} (h : ForFirst d ts)
    (hts : Unspelled name ts) : ∀ d' ∈ d, d'.Avoids name := by
  cases h with
  | var h =>
    rintro _ ⟨⟩
    exact h.avoids hts
  | expression h =>
    rintro _ ⟨⟩
    exact h.avoids hts
  | none => exact nofun

lemma avoids_block {body : List Stmt} (h : ∀ d ∈ body, d.Avoids name) :
    (Stmt.block body).Avoids name :=
  .intro nofun nofun nofun h

lemma avoids_loop {c : Expr} {body : Stmt} (hc : c.Avoids name) (hbody : body.Avoids name) :
    (Stmt.loop c body).Avoids name :=
  .intro nofun (List.forall_mem_singleton.mpr hc) (List.forall_mem_singleton.mpr hbody) nofun

lemma avoids_forLoop {first : Option Stmt} {condition increment : Option Expr} {body : Stmt}
    (hfirst : ∀ d ∈ first, d.Avoids name) (hcondition : ∀ e ∈ condition, e.Avoids name)
    (hincrement : ∀ e ∈ increment, e.Avoids name) (hbody : body.Avoids name) :
    (forLoop first condition increment body).Avoids name := by
  have htrue : (Expr.literal (.boolean true)).Avoids name := by
    intro t ht
    simp [Expr.yield] at ht
  have hround : ∀ e ∈ increment, (Stmt.block [body, .expression e]).Avoids name := by
    intro e he
    have hlast := avoids_expression (hincrement e he)
    exact avoids_block (List.forall_mem_cons.mpr ⟨hbody, List.forall_mem_singleton.mpr hlast⟩)
  have hinside : ∀ d ∈ first, ∀ rounds : Stmt, rounds.Avoids name →
      (Stmt.block [d, rounds]).Avoids name := fun d hd rounds h =>
    avoids_block (List.forall_mem_cons.mpr ⟨hfirst d hd, List.forall_mem_singleton.mpr h⟩)
  unfold forLoop
  cases first <;> cases condition <;> cases increment <;> dsimp only
  all_goals
    first
    | refine hinside _ rfl _ (avoids_loop ?_ ?_)
    | refine avoids_loop ?_ ?_
    · first | exact htrue | exact hcondition _ rfl
    · first | exact hbody | exact hround _ rfl

/-- What derives from tokens without a name is a tree without it. -/
lemma Derives.avoids {strict o : Bool} {q : Nonterminal} {x : q.Tree} {ts : List Token}
    (h : Derives strict q x o ts) (hts : Unspelled name ts) : q.Avoids name x := by
  induction h with
  | nil => exact List.forall_mem_nil _
  | cons _ _ ih ih' =>
    obtain ⟨hts, hus⟩ := List.forall_mem_append.mp hts
    exact List.forall_mem_cons.mpr ⟨ih hts, ih' hus⟩
  | classDecl _ _ _ _ _ ih =>
    have hmembers := ih fun t ht => hts t (by simp [ht])
    refine .intro ?_ nofun nofun ?_
    · refine List.forall_mem_cons.mpr ⟨hts _ (by simp), fun t ht => ?_⟩
      obtain ⟨d, hd, ht⟩ := List.mem_flatMap.mp ht
      exact (hmembers d hd).params t ht
    · intro b hb
      obtain ⟨d, hd, hb⟩ := List.mem_flatMap.mp hb
      exact (hmembers d hd).body b hb
  | funDecl _ _ ih =>
    obtain ⟨hname, hd⟩ := ih fun t ht => hts t (by simp [ht])
    exact .intro (List.forall_mem_cons.mpr ⟨hname, hd.params⟩) nofun nofun hd.body
  | varDecl h => exact h.avoids hts
  | ofStatement _ ih => exact ih hts
  | noMembers => exact List.forall_mem_nil _
  | instanceMethod _ _ ih ih' =>
    obtain ⟨hts, hus⟩ := List.forall_mem_append.mp hts
    exact List.forall_mem_cons.mpr ⟨(ih hts).2, ih' hus⟩
  | staticMethod _ _ _ ih ih' =>
    obtain ⟨hts, hus⟩ := List.forall_mem_append.mp (List.forall_mem_cons.mp hts).2
    obtain ⟨hmethods, hstatics⟩ := List.forall_mem_append.mp (ih' hus)
    exact List.forall_mem_append.mpr ⟨hmethods, List.forall_mem_cons.mpr ⟨(ih hts).2, hstatics⟩⟩
  | function _ _ hparams _ _ _ _ ih =>
    refine ⟨hts _ (List.mem_cons_self ..), ?_, ih fun t ht => hts t (by simp [ht])⟩
    exact hparams.unspelled fun t ht => hts t (by simp [ht])
  | getter _ _ _ _ ih =>
    exact ⟨hts _ (List.mem_cons_self ..), List.forall_mem_nil _,
      ih fun t ht => hts t (by simp [ht])⟩
  | exprStmt h => exact h.avoids hts
  | printStmt _ he _ =>
    refine .intro nofun ?_ nofun nofun
    exact List.forall_mem_singleton.mpr (he.avoids fun t ht => hts t (by simp [ht]))
  | ifStmt _ _ hc _ _ ih =>
    refine .intro nofun ?_ ?_ nofun
    · exact List.forall_mem_singleton.mpr (hc.avoids fun t ht => hts t (by simp [ht]))
    · exact List.forall_mem_singleton.mpr (ih fun t ht => hts t (by simp [ht]))
  | ifElse _ _ hc _ _ _ _ _ ih ih' =>
    have ht := ih fun t ht => hts t (by simp [ht])
    have he := ih' fun t ht => hts t (by simp [ht])
    refine .intro nofun ?_ ?_ nofun
    · exact List.forall_mem_singleton.mpr (hc.avoids fun t ht => hts t (by simp [ht]))
    · exact List.forall_mem_cons.mpr ⟨ht, List.forall_mem_singleton.mpr he⟩
  | whileStmt _ _ hc _ _ ih =>
    exact avoids_loop (hc.avoids fun t ht => hts t (by simp [ht]))
      (ih fun t ht => hts t (by simp [ht]))
  | forStmt _ _ hfirst hcondition _ hincrement _ _ ih =>
    refine avoids_forLoop ?_ ?_ ?_ (ih fun t ht => hts t (by simp [ht]))
    · exact hfirst.avoids fun t ht => hts t (by simp [ht])
    · exact hcondition.avoids fun t ht => hts t (by simp [ht])
    · exact hincrement.avoids fun t ht => hts t (by simp [ht])
  | breakStmt => exact .intro nofun nofun nofun nofun
  | returnStmt _ he _ =>
    refine .intro nofun (fun e hmem => ?_) nofun nofun
    exact he.avoids (fun t ht => hts t (by simp [ht])) e (Option.mem_toList.mp hmem)
  | block _ _ _ ih => exact avoids_block (ih fun t ht => hts t (by simp [ht]))

end Grammar

namespace Scope

open Grammar

end Scope

end Lox
