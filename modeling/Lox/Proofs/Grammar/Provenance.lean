import Lox.Proofs.Grammar.Allowance
import Lox.Proofs.Grammar.Relabeling
import Lox.Proofs.Scope.Lines
import Lox.Proofs.Source.Lines

/-!
Where the tokens of trees and the lines of complaints come from.

Other tokens in place of those of a text are read as the tree with those tokens. So a change of
tokens that leaves those of the text alone leaves the tree alone, and all tokens in it are from the
text. The same goes for lines, in trees and in complaints.
-/

namespace Lox.Grammar

variable {k : Edit} {tokens : List Token} {i : NodeId} {mode : Mode} {source : String}
  {input : Input} {cs : List Complaint}

/-! ### Tokens -/

section
variable (hk : ∀ j, k.node j = j) (ht : Ended tokens) (hsame : tokens.map k.token = tokens)

include hk ht hsame

lemma start_edit_eq : (Cursor.start tokens i).edit k id = .start tokens i := by
  have hstart := start_map_of_stop (k := k) (f := id) (stopToken_map ht) i
  rw [hsame, hk] at hstart
  exact hstart.symm

lemma edit_eq_of_singleExpression {e : Expr} (h : (singleExpression tokens i).result = .ok e) :
    e.edit k = e := by
  unfold singleExpression at h
  cases hr : expression (allowance tokens) (.start tokens i) with
  | done a c =>
    have hc := (unnoticed_editing (q := False) (f := id) (fun j => by rw [hk, hk])
      False.elim).expression (allowance tokens) (.start tokens i)
    rw [hr] at h hc
    dsimp only at h
    split at h
    · unfold Cursor.finish at h
      dsimp only at h
      split at h
      · rename_i hcs
        cases h
        -- the edited tokens are the same, and so is what is read from them
        have hedited := (hc (.inr (List.isEmpty_iff.mp hcs))).2
        change expression _ ((Cursor.start tokens i).edit k id) = _ at hedited
        rw [start_edit_eq hk ht hsame, hr] at hedited
        exact (Outcome.done.inj hedited).1.symm
      · cases h
    · cases h
  | failed e c => rw [hr] at h; cases h
  | exhausted => rw [hr] at h; cases h

lemma edit_eq_of_program {body : List Stmt} (h : (program tokens i).result = .ok body) :
    body.map (Stmt.edit k) = body := by
  unfold program at h
  cases hr : declarations (allowance tokens) [] (.start tokens i) with
  | done a c =>
    have hc := (unnoticed_editing (q := False) (f := id) (fun j => by rw [hk, hk])
      False.elim).declarations (allowance tokens) [] (.start tokens i)
    rw [hr] at h hc
    unfold Cursor.finish at h
    dsimp only at h
    split at h
    · rename_i hcs
      cases h
      have hedited := (hc (.inr (List.isEmpty_iff.mp hcs))).2
      change declarations _ [] ((Cursor.start tokens i).edit k id) = _ at hedited
      rw [start_edit_eq hk ht hsame, hr] at hedited
      exact (Outcome.done.inj hedited).1.symm
    · cases h
  | failed e c => rw [hr] at h; cases h
  | exhausted => rw [hr] at h; cases h

/-- Other tokens than those of a text do not occur in what is read from it. -/
lemma edit_eq_of_inputOf (h : (inputOf mode tokens i).result = .ok input) :
    input.edit k = input := by
  have hexpression : ∀ {j}, (singleExpression tokens j).result.map .expression = .ok input →
      input.edit k = input := by
    intro j h
    cases hr : (singleExpression tokens j).result with
    | error cs => rw [hr] at h; cases h
    | ok e =>
      rw [hr] at h
      cases h
      exact congrArg Input.expression (edit_eq_of_singleExpression hk ht hsame hr)
  have hprogram : ∀ {j}, (program tokens j).result.map .statements = .ok input →
      input.edit k = input := by
    intro j h
    cases hr : (program tokens j).result with
    | error cs => rw [hr] at h; cases h
    | ok body =>
      rw [hr] at h
      cases h
      exact congrArg Input.statements (edit_eq_of_program hk ht hsame hr)
  cases mode with
  | program => exact hprogram h
  | expression => exact hexpression h
  | line =>
    rw [inputOf] at h
    rcases line_cases tokens i with hline | ⟨j, -, hline⟩
    · rw [hline] at h
      exact hexpression h
    · rw [hline] at h
      exact hprogram h

end

lemma inputOf_of_read (h : (read mode source i).result = .ok input) :
    (inputOf mode (Source.tokens source) i).result = .ok input := by
  have hread : read mode source i = ⟨.ok input, (read mode source i).nextId⟩ :=
    congrArg (Parsed.mk · _) h
  exact congrArg Parsed.result (read_eq_ok_iff.mp hread).2

/-! ### Lines -/

/-- Lines beyond the last one, and the line before the first, are moved to those. -/
def withinLines (last : ℕ) : Relabeling := ⟨id, fun line => max 1 (min line last)⟩

lemma line_withinLines (source : String) (line : ℕ) :
    Source.IsLine source
      ((withinLines (1 + Source.lineBreaks source.toList)).line line) := by
  change 1 ≤ max 1 (min line _) ∧ max 1 (min line _) ≤ _
  omega

lemma relabel_withinLines {t : Token} (h : t ∈ Source.tokens source) :
    t.relabel (withinLines (1 + Source.lineBreaks source.toList)) = t := by
  obtain ⟨hone, hlast⟩ := Source.isLine_of_mem_tokens h
  obtain ⟨kind, lexeme, line⟩ := t
  refine congrArg (Token.mk kind lexeme) ?_
  change max 1 (min line _) = line
  dsimp only at hone hlast
  omega

lemma inputOf_withinLines (mode : Mode) (source : String) (i : NodeId) :
    inputOf mode (Source.tokens source) i =
      (inputOf mode (Source.tokens source) i).relabel
        (withinLines (1 + Source.lineBreaks source.toList))
        (Complaint.relabel (withinLines (1 + Source.lineBreaks source.toList)))
        (Input.relabel (withinLines (1 + Source.lineBreaks source.toList))) := by
  have h : Respects (withinLines (1 + Source.lineBreaks source.toList)).edit
      (Complaint.relabel (withinLines (1 + Source.lineBreaks source.toList))) :=
    ⟨fun _ => rfl, fun _ _ => rfl⟩
  have hread := h.inputOf_relabel (ended_tokens source) mode i
  rwa [List.map_congr_left fun t => relabel_withinLines, List.map_id'] at hread

lemma isLine_of_mem_relabel {c : Complaint}
    (h : c ∈ cs.map (Complaint.relabel (withinLines (1 + Source.lineBreaks source.toList)))) :
    Source.IsLine source c.line := by
  obtain ⟨d, -, rfl⟩ := List.mem_map.mp h
  cases d <;> exact line_withinLines source _

/-- A text is refused with complaints about its own lines. -/
theorem isLine_of_read_eq_error (h : (read mode source i).result = .error cs) :
    ∀ c ∈ cs, Source.IsLine source c.line := by
  have hlexical : ∀ c ∈ lexicalComplaints source, Source.IsLine source c.line := by
    intro c hc
    obtain ⟨⟨line, f⟩, hf, rfl⟩ := List.mem_map.mp hc
    exact Source.isLine_of_mem_faults hf
  have hsame := congrArg Parsed.result (inputOf_withinLines mode source i)
  unfold Grammar.read readBy at h
  dsimp only at h
  split at h
  · rename_i cs' hcs
    cases h
    rw [Parsed.relabel, hcs] at hsame
    intro c hc
    rcases List.mem_append.mp hc with hc | hc
    · exact hlexical c hc
    · rw [Except.error.inj hsame] at hc
      exact isLine_of_mem_relabel hc
  · rename_i input' hinput
    split at h
    · rw [hinput] at h
      cases h
    · cases h
      exact hlexical

/-- The names in a text are complained about on its own lines. -/
theorem isLine_of_ofInput (h : (read mode source i).result = .ok input) :
    ∀ c ∈ (Scope.ofInput input).complaints, Source.IsLine source c.line := by
  have hsame := congrArg Parsed.result (inputOf_withinLines mode source i)
  rw [Parsed.relabel, inputOf_of_read h] at hsame
  have hinput := Except.ok.inj hsame
  intro c hc
  -- the survey of the same input has the same complaints
  have hperm := (Scope.ofInput_relabel_perm
    (withinLines (1 + Source.lineBreaks source.toList)) input).2
  rw [← hinput] at hperm
  exact isLine_of_mem_relabel (hperm.mem_iff.mp hc)

end Lox.Grammar
