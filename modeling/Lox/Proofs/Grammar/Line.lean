import Lox.Proofs.Grammar.Allowance
import Lox.Proofs.Grammar.Relabeling

/-!
A line is an expression or statements.

A line is read as an expression first. If one reaches to the end of input, the line is read, or
refused, as that expression is. Otherwise the attempt is given up wherever it has come to, and the
line is read as a program. The attempt leaves nothing behind but the numbers that it has used.
-/

namespace Lox.Grammar

/-- An expression is read from the front, and nothing is left after it. -/
structure Spans (tokens : List Token) (firstId : NodeId) (e : Expr) (c : Cursor) : Prop where
  read : ∃ n, expression n (.start tokens firstId) = .done e c
  rest : c.rest = []

section
variable {tokens : List Token} {firstId : NodeId} {e : Expr} {c : Cursor}

lemma Spans.expression_eq (h : Spans tokens firstId e c) :
    expression (allowance tokens) (.start tokens firstId) = .done e c := by
  obtain ⟨n, hn⟩ := h.read
  rw [← hn]
  exact expression_of_enough tokens firstId fun he => by cases hn.symm.trans he

lemma Spans.line_eq (h : Spans tokens firstId e c) :
    line tokens firstId = c.finish (.expression e) := by
  unfold line
  rw [h.expression_eq]
  dsimp only
  rw [h.rest]
  rfl

lemma Spans.singleExpression_eq (h : Spans tokens firstId e c) :
    singleExpression tokens firstId = c.finish e := by
  unfold singleExpression
  rw [h.expression_eq]
  dsimp only
  rw [h.rest]
  rfl

/-- An expression by itself is one that reaches to the end of input, without complaints. -/
lemma exists_spans (h : (singleExpression tokens firstId).result = .ok e) :
    ∃ c, Spans tokens firstId e c ∧ c.complaints = [] := by
  unfold singleExpression at h
  cases hr : expression (allowance tokens) (.start tokens firstId) with
  | done a c =>
    rw [hr] at h
    dsimp only at h
    split at h
    · rename_i hrest
      unfold Cursor.finish at h
      dsimp only at h
      split at h
      · rename_i hcs
        cases h
        exact ⟨c, ⟨⟨_, hr⟩, List.isEmpty_iff.mp hrest⟩, List.isEmpty_iff.mp hcs⟩
      · cases h
    · cases h
  | failed e c => rw [hr] at h; cases h
  | exhausted => rw [hr] at h; cases h

/-- Where no expression reaches to the end of input, the line is read as a program, with numbers
from some later one on. -/
lemma exists_line_eq (h : ∀ e c, ¬Spans tokens firstId e c) :
    ∃ k, line tokens firstId = ⟨(program tokens (firstId + k)).result.map .statements,
      (program tokens (firstId + k)).nextId⟩ := by
  have hend := expression_endsAt tokens firstId
  unfold Rule.EndsAt at hend
  unfold line
  cases hr : expression (allowance tokens) (.start tokens firstId) with
  | done e c =>
    rw [hr] at hend
    have hrest : ¬c.rest.isEmpty := fun hc => h e c ⟨⟨_, hr⟩, List.isEmpty_iff.mp hc⟩
    obtain ⟨k, hk⟩ := Nat.exists_eq_add_of_le hend.2
    have hk : c.nextId = firstId + k := hk
    exact ⟨k, by dsimp only; rw [if_neg hrest, hk]⟩
  | failed e c =>
    rw [hr] at hend
    obtain ⟨k, hk⟩ := Nat.exists_eq_add_of_le hend.2
    have hk : c.nextId = firstId + k := hk
    exact ⟨k, by dsimp only; rw [hk]⟩
  | exhausted => exact absurd hr (expression_not_exhausted tokens firstId)

end

/-- Statements whose numbers start later are read the same with those numbers, and refused with the
same complaints. -/
lemma program_shift (tokens : List Token) (firstId k : NodeId) :
    program tokens (firstId + k) =
      ⟨(program tokens firstId).result.map (List.map (Stmt.relabel (.shift k 0))),
        (program tokens firstId).nextId + k⟩ := by
  have h : Respects (Relabeling.shift k 0).edit id :=
    ⟨fun j => Nat.add_right_comm j 1 k, fun _ _ => rfl⟩
  have htoken : tokens.map (Relabeling.shift k 0).edit.token = tokens := by
    change tokens.map (Token.relabel _) = tokens
    rw [Token.relabel_eq_id _ rfl, List.map_id]
  have hstop : stopToken (tokens.map (Relabeling.shift k 0).edit.token) =
      (Relabeling.shift k 0).edit.token (stopToken tokens) := by
    rw [htoken]
    rfl
  have hread := h.program_map_of_stop hstop firstId
  rw [htoken, funext (Stmt.edit_relabeling _)] at hread
  refine hread.trans ?_
  unfold Parsed.edit
  cases (program tokens firstId).result with
  | ok body => rfl
  | error cs => exact congrArg (Parsed.mk · _) (congrArg Except.error (List.map_id cs))

/-- A line is read as the expression that it is by itself. An expression that reaches to the end of
input with complaints makes the line fail with just those. Any other line is read as a program, with
the same statements up to their numbers or the same complaints. -/
theorem line_of_modes (tokens : List Token) (firstId : NodeId) :
    (∀ e, (singleExpression tokens firstId).result = .ok e →
      line tokens firstId = ⟨.ok (.expression e), (singleExpression tokens firstId).nextId⟩) ∧
    (∀ e c, Spans tokens firstId e c → c.complaints ≠ [] →
      (singleExpression tokens firstId).result = .error c.complaints.reverse ∧
      (line tokens firstId).result = .error c.complaints.reverse) ∧
    ((∀ e c, ¬Spans tokens firstId e c) → ∃ k, line tokens firstId =
      ⟨(program tokens firstId).result.map
          fun body => .statements (body.map (Stmt.relabel (.shift k 0))),
        (program tokens firstId).nextId + k⟩) := by
  refine ⟨fun e h => ?_, fun e c hspan hcs => ?_, fun h => ?_⟩
  · obtain ⟨c, hspan, hcs⟩ := exists_spans h
    rw [hspan.line_eq, hspan.singleExpression_eq]
    unfold Cursor.finish
    rw [hcs]
    rfl
  · have hfail : ∀ {α : Type} (a : α), (c.finish a).result = .error c.complaints.reverse :=
      fun a => if_neg fun he => hcs (List.isEmpty_iff.mp he)
    rw [hspan.line_eq, hspan.singleExpression_eq]
    exact ⟨hfail e, hfail _⟩
  · obtain ⟨k, hk⟩ := exists_line_eq h
    refine ⟨k, hk.trans ?_⟩
    rw [program_shift]
    cases (program tokens firstId).result with
    | ok body => rfl
    | error cs => rfl

end Lox.Grammar
