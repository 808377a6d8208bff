import Lox.Proofs.Grammar.SingleExpression
import Lox.Proofs.Grammar.StatementReading
import Lox.Proofs.Grammar.StatementSettling

/-!
The programs that are accepted, and the trees that they are read as.
-/

namespace Lox.Grammar

lemma program_sound {tokens : List Token} {firstId : NodeId} {body : List Stmt}
    (h : (program tokens firstId).result = .ok body) :
    Reads .declarations false firstId (beforeEnd tokens) body false
      (program tokens firstId).nextId := by
  unfold program at h ⊢
  cases hr : declarations (allowance tokens) [] (.start tokens firstId) with
  | done a c =>
    rw [hr] at h
    obtain ⟨hq, rfl⟩ := Cursor.finish_eq_ok.mp h
    obtain ⟨-, ts, hts, more, rfl, hrest, hread⟩ := readsAt_declarations [] a c hr hq
    rw [hrest, List.append_nil] at hts
    rw [show beforeEnd tokens = ts from hts]
    exact hread
  | failed e c => rw [hr] at h; exact nomatch h
  | exhausted => rw [hr] at h; exact nomatch h

lemma program_complete {tokens : List Token} {body : List Stmt}
    (h : Derives true .declarations body false (beforeEnd tokens))
    (hbody : ∀ s ∈ body, Admissible false s) (firstId : NodeId) :
    ∃ body', (program tokens firstId).result = .ok body' ∧
      Stmt.unnumberedEach body' = Stmt.unnumberedEach body := by
  obtain ⟨body', j, hbody', hev⟩ :=
    (h.covered.2 hbody [] (.start tokens firstId) rfl).exists_done
  obtain ⟨n, hn⟩ := hev.exists
  replace hn : declarations n [] (.start tokens firstId) = _ := hn
  have hall := declarations_of_enough tokens firstId (n := n) (by rw [hn]; exact nofun)
  rw [hn] at hall
  refine ⟨body', ?_, by simpa using hbody'⟩
  rw [program, hall]
  rfl

/-- A program is accepted exactly if the tokens before the end of input derive from the grammar,
no list of arguments or parameters is too long, and every `break` stands in a loop. What it is read
as is then the tree of a derivation in which each `else` belongs to the nearest `if`, and there is
no other such tree, up to the numbers of nodes. -/
theorem program_accepts_grammar (tokens : List Token) (firstId : NodeId) :
    ((∃ body, (program tokens firstId).result = .ok body) ↔
      ∃ body, Derives false .declarations body false (beforeEnd tokens) ∧
        ∀ s ∈ body, Admissible false s) ∧
    (∀ body, (program tokens firstId).result = .ok body →
      Derives true .declarations body false (beforeEnd tokens) ∧
        ∀ s ∈ body, Admissible false s) ∧
    (∀ body, Derives true .declarations body false (beforeEnd tokens) →
      (∀ s ∈ body, Admissible false s) →
        ∃ body', (program tokens firstId).result = .ok body' ∧
          Stmt.unnumberedEach body' = Stmt.unnumberedEach body) := by
  refine ⟨⟨?_, ?_⟩, ?_, fun body h hbody => program_complete h hbody firstId⟩
  · rintro ⟨body, h⟩
    have hread := program_sound h
    exact ⟨body, hread.derives.loosely, hread.admissible⟩
  · rintro ⟨body, h, hbody⟩
    obtain ⟨body', o, h', hbody'⟩ := h.strictly
    obtain rfl := h'.closed nofun nofun
    obtain ⟨r, hr, -⟩ := program_complete h' (hbody' false hbody) firstId
    exact ⟨r, hr⟩
  · intro body h
    exact ⟨(program_sound h).derives, (program_sound h).admissible⟩

end Lox.Grammar
