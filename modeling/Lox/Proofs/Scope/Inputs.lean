import Lox.Grammar.Read
import Lox.Proofs.Scope.Visits

/-!
What is read from a source text: an orderly tree whose nodes have numbers of their own, and in
which each `break` stands in a loop.
-/

namespace Lox.Scope

open Grammar

variable {tokens : List Token} {firstId : NodeId} {input : Input}

/-- The tokens of a text keep words and names apart, and so do those before its end. -/
lemma worded_beforeEnd {source : String} :
    ∀ t ∈ beforeEnd (Source.tokens source), t.Worded :=
  fun _ ht => Source.worded_of_mem_tokens ((List.takeWhile_sublist _).mem ht)

/-- An input that was read while the numbers went from `i` to `j`. -/
structure ReadInput (i : NodeId) (input : Input) (j : NodeId) : Prop where
  fresh : Fresh i j (rootOf input).ids
  orderly : (rootOf input).Orderly
  admissible : ∀ d ∈ bodyOf input, Admissible false d

lemma readInput_program {body : List Stmt} (hw : ∀ t ∈ beforeEnd tokens, t.Worded)
    (h : (program tokens firstId).result = .ok body) :
    ReadInput firstId (.statements body) (program tokens firstId).nextId :=
  have hread := program_sound h
  ⟨hread.fresh, hread.derives.orderly hw, hread.admissible⟩

lemma readInput_singleExpression {e : Expr} (hw : ∀ t ∈ beforeEnd tokens, t.Worded)
    (h : (singleExpression tokens firstId).result = .ok e) :
    ReadInput firstId (.expression e) (singleExpression tokens firstId).nextId :=
  have hread := singleExpression_sound h
  ⟨hread.fresh, hread.derives.orderly hw, nofun⟩

lemma result_map_eq_ok {α β : Type} {r : Except (List Complaint) α} {f : α → β} {b : β}
    (h : r.map f = .ok b) : ∃ a, r = .ok a ∧ f a = b := by
  cases r with
  | error => exact nomatch h
  | ok a => exact ⟨a, rfl, Except.ok.inj h⟩

lemma readInput_inputOf {mode : Mode} (hw : ∀ t ∈ beforeEnd tokens, t.Worded)
    (h : (inputOf mode tokens firstId).result = .ok input) :
    ReadInput firstId input (inputOf mode tokens firstId).nextId := by
  cases mode with
  | program =>
    obtain ⟨body, hbody, rfl⟩ := result_map_eq_ok h
    exact readInput_program hw hbody
  | expression =>
    obtain ⟨e, he, rfl⟩ := result_map_eq_ok h
    exact readInput_singleExpression hw he
  | line =>
    rw [inputOf] at h ⊢
    rcases line_cases tokens firstId with hline | ⟨id, hid, hline⟩
    · rw [hline] at h ⊢
      obtain ⟨e, he, rfl⟩ := result_map_eq_ok h
      exact readInput_singleExpression hw he
    · rw [hline] at h ⊢
      obtain ⟨body, hbody, rfl⟩ := result_map_eq_ok h
      have hread := readInput_program hw hbody
      exact ⟨hread.fresh.widen hid, hread.orderly, hread.admissible⟩

lemma nextId_readBy {α : Type} (parse : List Token → NodeId → Parsed α) (source : String)
    (firstId : NodeId) :
    (readBy parse source firstId).nextId = (parse (Source.tokens source) firstId).nextId := by
  unfold readBy
  dsimp only
  split
  · rfl
  · split <;> rfl

lemma inputOf_of_read {mode : Mode} {source : String}
    (h : (read mode source firstId).result = .ok input) :
    (inputOf mode (Source.tokens source) firstId).result = .ok input := by
  unfold Grammar.read readBy at h
  dsimp only at h
  split at h
  · exact nomatch h
  · split at h
    · exact h
    · exact nomatch h

/-- What is read from a source text is orderly, and its numbers are new. -/
theorem readInput_read {mode : Mode} {source : String}
    (h : (read mode source firstId).result = .ok input) :
    ReadInput firstId input (read mode source firstId).nextId := by
  unfold Grammar.read
  rw [nextId_readBy]
  exact readInput_inputOf worded_beforeEnd (inputOf_of_read h)

/-- The numbers never go back, whether a text is read or refused. -/
theorem nextId_read_le (mode : Mode) (source : String) (firstId : NodeId) :
    firstId ≤ (read mode source firstId).nextId := by
  unfold Grammar.read
  rw [nextId_readBy]
  cases mode with
  | program => exact nextId_program_le ..
  | expression => exact nextId_singleExpression_le ..
  | line =>
    rw [inputOf]
    rcases line_cases (Source.tokens source) firstId with hline | ⟨id, hid, hline⟩
    · rw [hline]
      exact nextId_singleExpression_le ..
    · rw [hline]
      exact hid.trans (nextId_program_le ..)

end Lox.Scope
