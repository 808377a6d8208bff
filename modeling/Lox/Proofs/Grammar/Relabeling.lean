import Lox.Proofs.Grammar.Editing

/-!
Reading at other numbers and lines.

Tokens on other lines, with other numbers for the nodes, are read as the same tree with those lines
and numbers, and refused with the same complaints. As the rules do not look at complaints either,
the same argument shows that all complaints of the grammar are of one sort.
-/

namespace Lox.Grammar

variable {r : Relabeling} {f : Complaint → Complaint}

/-- What was read, with other numbers and complaints. -/
def Parsed.relabel {α β : Type} (r : Relabeling) (f : Complaint → Complaint) (g : α → β)
    (p : Parsed α) : Parsed β where
  result :=
    match p.result with
    | .ok a => .ok (g a)
    | .error cs => .error (cs.map f)
  nextId := r.node p.nextId

namespace Respects

variable {tokens : List Token}

/-- Other numbers and lines, and other complaints, make no difference to how tokens are read. -/
theorem inputOf_relabel (h : Respects r.edit f) (ht : Ended tokens) (mode : Mode) (i : NodeId) :
    inputOf mode (tokens.map (Token.relabel r)) (r.node i) =
      (inputOf mode tokens i).relabel r f (Input.relabel r) := by
  rw [← funext (Input.edit_relabeling r)]
  exact h.inputOf_map ht mode i

end Respects

/-! ### Source texts -/

/-- A text whose numbers start later is read as the same tree with those numbers, and refused with
the same complaints. -/
lemma inputOf_shift (mode : Mode) (source : String) (i k : NodeId) :
    inputOf mode (Source.tokens source) (i + k) =
      (inputOf mode (Source.tokens source) i).relabel (.shift k 0) id
        (Input.relabel (.shift k 0)) := by
  have h : Respects (Relabeling.shift k 0).edit id :=
    ⟨fun j => Nat.add_right_comm j 1 k, fun _ _ => rfl⟩
  have hread := h.inputOf_relabel (ended_tokens source) mode i
  rwa [Token.relabel_eq_id (.shift k 0) rfl, List.map_id] at hread

theorem read_shift (mode : Mode) (source : String) (i k : NodeId) :
    read mode source (i + k) =
      (read mode source i).relabel (.shift k 0) id (Input.relabel (.shift k 0)) := by
  unfold Grammar.read readBy
  rw [inputOf_shift]
  obtain ⟨result, j⟩ := inputOf mode (Source.tokens source) i
  cases result with
  | error cs => simp [Parsed.relabel]
  | ok input =>
    dsimp only [Parsed.relabel]
    split
    · rfl
    · simp

/-- All complaints are about the grammar. -/
def asGrammar : Complaint → Complaint
  | .grammar line place e => .grammar line place e
  | .lexical line _ => .grammar line .endOfInput .expectedEnd
  | .scope line place _ => .grammar line place .expectedEnd

/-- Reading finds faults of the grammar only. -/
theorem inputOf_complaints {mode : Mode} {source : String} {i : NodeId} {cs : List Complaint}
    (h : (inputOf mode (Source.tokens source) i).result = .error cs) :
    ∀ c ∈ cs, ∃ line place e, c = .grammar line place e := by
  -- nothing changes if complaints of other sorts are turned into this sort
  have hf : Respects Relabeling.same.edit asGrammar := ⟨fun _ => rfl, fun _ _ => rfl⟩
  have hsame := hf.inputOf_relabel (ended_tokens source) mode i
  rw [Token.relabel_eq_id _ rfl, List.map_id] at hsame
  have hresult := congrArg Parsed.result hsame
  rw [Parsed.relabel, h, show Relabeling.same.node i = i from rfl, h] at hresult
  have hmap : cs = cs.map asGrammar := Except.error.inj hresult
  intro c hc
  rw [hmap] at hc
  obtain ⟨d, -, rfl⟩ := List.mem_map.mp hc
  cases d <;> exact ⟨_, _, _, rfl⟩

end Lox.Grammar
