import Lox.Proofs.Grammar.Acceptance
import Lox.Proofs.Grammar.Relabeling
import Lox.Proofs.Source.Seam

/-!
Two programs one after the other.

A rule that has read some tokens without complaint reads the same if more tokens come after them,
as long as it does not look past its own. The only rule that does is the one for `if`, which looks
for an `else`; and no program starts with this word. So two programs, put one after the other, are
read as the statements of the first and then those of the second.
-/

namespace Lox.Grammar

variable {c c' d : Cursor}

/-- The cursor `c` with the tokens of `d` behind its own. -/
def Cursor.join (c d : Cursor) : Cursor where
  rest := c.rest ++ d.rest
  stop := d.stop
  stop_kind := d.stop_kind
  nextId := c.nextId
  complaints := c.complaints

lemma declarations_atEnd (h : c.rest = []) (n : ℕ) (found : List Stmt) :
    declarations (n + 1) found c = .done found.reverse c := by
  rw [declarations, Rule.bind_apply]
  simp [atEnd, h]
  rfl

lemma declarations_next (h : c.rest ≠ []) (n : ℕ) (found : List Stmt) :
    declarations (n + 1) found c =
      (declaration n false >>= fun s => declarations n (s.toList ++ found)) c := by
  have hrest : c.rest.isEmpty = false := List.isEmpty_eq_false_iff.mpr h
  rw [declarations, Rule.bind_apply]
  simp [atEnd, hrest]

/-- What is read does not depend on what was found before. -/
lemma declarations_done {n : ℕ} {found body : List Stmt}
    (hr : declarations n found c = .done body c') :
    ∃ more, body = found.reverse ++ more ∧
      ∀ before, declarations n before c = .done (before.reverse ++ more) c' := by
  -- what was found before is only put in front
  induction n generalizing found c with
  | zero => cases hr
  | succ n ih =>
    by_cases hend : c.rest = []
    · rw [declarations_atEnd hend] at hr
      cases hr
      exact ⟨[], (List.append_nil _).symm, fun before => by
        rw [declarations_atEnd hend, List.append_nil]⟩
    · rw [declarations_next hend] at hr
      obtain ⟨s, c₁, hs, hr⟩ := Rule.bind_eq_done.mp hr
      obtain ⟨more, rfl, hmore⟩ := ih hr
      refine ⟨s.toList.reverse ++ more, by simp, fun before => ?_⟩
      rw [declarations_next hend]
      exact Rule.bind_eq_done.mpr ⟨s, c₁, hs, by rw [hmore]; simp⟩

section
variable {tokens us : List Token} {body more : List Stmt} {i j k : NodeId}

end

end Lox.Grammar
