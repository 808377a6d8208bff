import Mathlib.Tactic.Common
import Lox.Grammar.Statement
import Lox.Proofs.Grammar.Precedence

/-!
The numbers of an expression are new, whatever complaints there are about it.

An expression may be read and then given up, as one is with which a line of statements begins, or
one with complaints. Its nodes have used up their numbers all the same.
-/

namespace Lox.Grammar

open Lox.Expr

variable {α β : Type}

namespace Rule

/-- From a state of the numbers that satisfies `P`, a rule that succeeds comes to one that satisfies
`Q`, which may depend on what it yields. -/
def Numbers (r : Rule α) (P : NodeId → Prop) (Q : α → NodeId → Prop) : Prop :=
  ∀ c a c', P c.nextId → r c = .done a c' → Q a c'.nextId

variable {r : Rule α} {f : α → Rule β} {P : NodeId → Prop} {Q : α → NodeId → Prop}
  {R : β → NodeId → Prop}

lemma numbers_pure {a : α} (h : ∀ i, P i → Q a i) : (pure a : Rule α).Numbers P Q := by
  rintro c _ _ hP ⟨⟩
  exact h _ hP

lemma numbers_exhausted : (exhausted : Rule α).Numbers P Q := nofun

lemma numbers_fail (e : Fault) : (fail e : Rule α).Numbers P Q := nofun

lemma Numbers.bind (h : r.Numbers P Q) (hf : ∀ a, (f a).Numbers (Q a) R) :
    (r >>= f).Numbers P R := by
  intro c b c' hP hb
  obtain ⟨a, c₁, ha, hb⟩ := bind_eq_done.mp hb
  exact hf a c₁ b c' (h c a c₁ hP ha) hb

/-! ### Rules that give out no number -/

lemma numbers_peek : peek.Numbers P fun _ => P := by
  rintro c _ _ hP ⟨⟩
  exact hP

lemma numbers_sees (p : Kind → Bool) : (sees p).Numbers P fun _ => P := by
  rintro c _ _ hP ⟨⟩
  exact hP

lemma numbers_advance : advance.Numbers P fun _ => P := by
  rintro c _ _ hP ⟨⟩
  exact hP

lemma numbers_report (t : Token) (e : Fault) : (report t e).Numbers P fun _ => P := by
  rintro c _ _ hP ⟨⟩
  exact hP

lemma numbers_require (b : Bool) (t : Token) (e : Fault) :
    (require b t e).Numbers P fun _ => P := by
  cases b with
  | true => exact numbers_pure fun _ h => h
  | false => exact numbers_report t e

lemma numbers_accept (p : Kind → Bool) : (accept p).Numbers P fun _ => P := by
  intro c o c' hP ho
  unfold accept at ho
  split at ho
  · cases ho
    exact hP
  · split at ho <;> cases ho <;> exact hP

lemma numbers_accept_bind {p : Kind → Bool} {f : Option Token → Rule β}
    (hnone : (f none).Numbers P R) (hsome : ∀ t, (f (some t)).Numbers P R) :
    (accept p >>= f).Numbers P R := by
  refine (numbers_accept p).bind fun o => ?_
  cases o with
  | none => exact hnone
  | some t => exact hsome t

lemma numbers_expect (p : Kind → Bool) (e : Fault) : (expect p e).Numbers P fun _ => P := by
  intro c t c' hP ht
  unfold expect at ht
  split at ht
  · cases ht
  · split at ht
    · cases ht
      exact hP
    · cases ht

lemma numbers_unlessSees {s : Symbol} {a : α} (ha : ∀ i, P i → Q a i) (h : r.Numbers P Q) :
    (unlessSees s a r).Numbers P Q := by
  refine (numbers_sees _).bind fun seen => ?_
  cases seen with
  | true => exact numbers_pure ha
  | false => exact h

end Rule

open Rule

/-! ### Expressions -/

/-- The rule yields an expression with new numbers, besides those there are. -/
def Rule.Renews (r : Rule Expr) (old : List NodeId) : Prop :=
  ∀ i xs, r.Numbers (fun j => Fresh i j (xs ++ old)) fun e j => Fresh i j (xs ++ e.ids)

lemma Rule.Renews.next {r : Rule Expr} {old : List NodeId} (h : r.Renews []) (i : NodeId)
    (xs : List NodeId) :
    r.Numbers (fun j => Fresh i j (xs ++ old)) fun e j => Fresh i j (xs ++ (old ++ e.ids)) := by
  have := h i (xs ++ old)
  simpa only [List.append_nil, List.append_assoc] using this

lemma idsOf_reverse_cons (e : Expr) (found : List Expr) :
    idsOf (e :: found).reverse = idsOf found.reverse ++ e.ids := by
  simp [idsOf_append, idsOf]

lemma renews_assignTo (target : Expr) (equals : Token) (value : Expr) :
    (assignTo target equals value).Renews (target.ids ++ value.ids) := by
  intro i xs
  cases target with
  | reference id name =>
    rintro c e c' h ⟨⟩
    -- the number of the name is given up
    have hkept : Fresh i c.nextId (xs ++ value.ids) :=
      h.sublist ((List.Sublist.refl xs).append (List.sublist_append_right ..))
    have := hkept.append (.singleton c.nextId)
    rwa [List.append_assoc] at this
  | property object name => exact numbers_pure fun _ h => h
  | _ =>
    refine (numbers_report _ _).bind fun _ => numbers_pure fun _ h => h.sublist ?_
    exact (List.Sublist.refl xs).append (List.sublist_append_left ..)

/-- What the rules for expressions yield with `n` steps. -/
structure ExprRenews (n : ℕ) : Prop where
  expr : ∀ l, (expr n l).Renews []
  chain : ∀ l left, (chain n l left).Renews left.ids
  suffixes : ∀ e, (suffixes n e).Renews e.ids
  argumentList : ∀ found i xs, (argumentList n found).Numbers
    (fun j => Fresh i j (xs ++ idsOf found.reverse)) fun es j => Fresh i j (xs ++ idsOf es)
  primary : (primary n).Renews []

lemma exprRenews (n : ℕ) : ExprRenews n := by
  induction n with
  | zero =>
    exact ⟨fun _ _ _ => numbers_exhausted, fun _ _ _ _ => numbers_exhausted,
      fun _ _ _ => numbers_exhausted, fun _ _ _ => numbers_exhausted, fun _ _ => numbers_exhausted⟩
  | succ n ih =>
    constructor
    · intro l i xs
      cases l with
      | assignment =>
        rw [Grammar.expr]
        refine (ih.expr _ i xs).bind fun target =>
          numbers_accept_bind (numbers_pure fun _ h => h) fun equals => ?_
        exact ((ih.expr _).next i xs).bind fun value => renews_assignTo target equals value i xs
      | conditional =>
        rw [Grammar.expr]
        refine (ih.expr _ i xs).bind fun condition =>
          numbers_accept_bind (numbers_pure fun _ h => h) fun _ => ?_
        refine ((ih.expr _).next i xs).bind fun whenTrue => (numbers_expect _ _).bind fun _ => ?_
        refine ((ih.expr _).next i xs).bind fun whenFalse => numbers_pure fun _ h => ?_
        rwa [List.append_assoc] at h
      | unary =>
        rw [Grammar.expr]
        exact numbers_accept_bind (ih.expr _ i xs) fun op =>
          (ih.expr _ i xs).bind fun operand => numbers_pure fun _ h => h
      | call => exact (ih.expr _ i xs).bind fun callee => ih.suffixes callee i xs
      | primary => exact ih.primary i xs
      | _ => exact (ih.expr _ i xs).bind fun left => ih.chain _ left i xs
    · intro l left i xs
      rw [Grammar.chain]
      refine numbers_accept_bind (numbers_pure fun _ h => h) fun op => ?_
      refine ((ih.expr _).next i xs).bind fun right => ?_
      rw [← ids_link]
      exact ih.chain _ _ i xs
    · intro e i xs
      rw [Grammar.suffixes]
      refine numbers_peek.bind fun t => ?_
      split
      · refine numbers_advance.bind fun _ => ?_
        refine Numbers.bind (Q := fun es j => Fresh i j (xs ++ (e.ids ++ idsOf es))) ?_
          fun arguments => (numbers_expect _ _).bind fun paren => ih.suffixes _ i xs
        refine numbers_unlessSees (fun j h => by simpa [idsOf] using h) ?_
        have := ih.argumentList [] i (xs ++ e.ids)
        simpa only [List.reverse_nil, idsOf, List.append_nil, List.append_assoc] using this
      · exact numbers_advance.bind fun _ => (numbers_expect _ _).bind fun name =>
          ih.suffixes _ i xs
      · exact numbers_pure fun _ h => h
    · intro found i xs
      rw [Grammar.argumentList]
      refine numbers_peek.bind fun _ => (numbers_require _ _ _).bind fun _ =>
        ((ih.expr _).next i xs).bind fun argument => ?_
      rw [← idsOf_reverse_cons]
      exact numbers_accept_bind (numbers_pure fun _ h => h) fun _ => ih.argumentList _ i xs
    · intro i xs
      have numbered : ∀ e : NodeId → Expr, (∀ id, (e id).ids = [id]) →
          ((freshId >>= fun id => pure (e id)) : Rule Expr).Numbers
            (fun j => Fresh i j (xs ++ [])) fun e j => Fresh i j (xs ++ e.ids) := by
        rintro e he c _ c' h ⟨⟩
        rw [he]
        rw [List.append_nil] at h
        exact h.append (.singleton _)
      rw [Grammar.primary]
      refine numbers_peek.bind fun t => ?_
      split
      case h_4 => exact numbers_advance.bind fun _ => numbered (.this · t) fun _ => rfl
      case h_7 => exact numbers_advance.bind fun _ => numbered (.reference · t) fun _ => rfl
      case h_8 =>
        exact numbers_advance.bind fun _ => (ih.expr _ i xs).bind fun inner =>
          (numbers_expect _ _).bind fun _ => numbers_pure fun _ h => h
      case h_9 =>
        split
        · exact numbers_advance.bind fun _ => (numbers_report _ _).bind fun _ => ih.expr _ i xs
        · exact numbers_fail _
      all_goals exact numbers_advance.bind fun _ => numbers_pure fun _ h => h

/-- An expression that is read has new numbers, whether or not there are complaints. -/
theorem fresh_of_expression {n : ℕ} {e : Expr} {c c' : Cursor}
    (h : expression n c = .done e c') : Fresh c.nextId c'.nextId e.ids :=
  (exprRenews n).expr .comma c.nextId [] c e c' (.nil le_rfl) h

end Lox.Grammar
