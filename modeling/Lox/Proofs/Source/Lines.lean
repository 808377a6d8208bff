import Lox.Proofs.Source.Decomposition

/-!
The lines of the items of a source are lines of the source, and they are in order.
-/

namespace Lox.Source

/-- The line of a token or a fault. -/
def Item.line : Item → ℕ
  | .token t => t.line
  | .fault line _ => line

/-- A line of a source text: they are numbered from one, and each line break begins another. -/
def IsLine (source : String) (line : ℕ) : Prop :=
  1 ≤ line ∧ line ≤ 1 + lineBreaks source.toList

lemma Reports.line_bounds {line : ℕ} {ss : List Segment} {is : List Item}
    (h : Reports line ss is) :
    ∀ i ∈ is, line ≤ i.line ∧ i.line ≤ line + lineBreaks (ss.flatMap (·.text)) := by
  -- the breaks of a segment come before those of all later ones
  have hbreaks : ∀ (s : Segment) (ss : List Segment),
      lineBreaks ((s :: ss).flatMap (·.text)) =
        lineBreaks s.text + lineBreaks (ss.flatMap (·.text)) := fun s ss => by
    rw [List.flatMap_cons, lineBreaks, List.count_append]
    rfl
  induction h with
  | nil => exact fun i hi => absurd hi List.not_mem_nil
  | @skipped line s ss is _ _ ih =>
    intro i hi
    have := ih i hi
    have := hbreaks s ss
    omega
  | @token line text k ss is _ ih =>
    intro i hi
    have hfirst := hbreaks ⟨text, .token k⟩ ss
    dsimp only at hfirst
    rcases List.mem_cons.mp hi with rfl | hi
    · dsimp only [Item.line]
      omega
    · have := ih i hi
      omega
  | @fault line text f ss is _ ih =>
    intro i hi
    have hfirst := hbreaks ⟨text, .fault f⟩ ss
    dsimp only at hfirst
    rcases List.mem_cons.mp hi with rfl | hi
    · dsimp only [Item.line]
      omega
    · have := ih i hi
      omega

lemma isLine_of_mem_items {source : String} {i : Item} (h : i ∈ items source) :
    IsLine source i.line := by
  have hdecomposes : Decomposes source.toList (segments source.toList) := decomposes_iff.mpr rfl
  obtain ⟨is, hreports, hitems⟩ := reports_segments source
  have h : i ∈ is ++ [.token ⟨.eof, "", 1 + lineBreaks source.toList⟩] := hitems ▸ h
  rcases List.mem_append.mp h with h | h
  · have hbounds := hreports.line_bounds i h
    rw [hdecomposes.flatMap_text] at hbounds
    exact hbounds
  · obtain rfl := List.mem_singleton.mp h
    exact ⟨Nat.le_add_right 1 _, le_rfl⟩

/-- Every token stands on a line of its source, the end of input included. -/
theorem isLine_of_mem_tokens {source : String} {t : Token} (h : t ∈ tokens source) :
    IsLine source t.line := by
  obtain ⟨i, hi, ht⟩ := List.mem_filterMap.mp h
  cases i with
  | token u =>
    obtain rfl := Option.some.inj ht
    exact isLine_of_mem_items hi
  | fault line f => cases ht

theorem isLine_of_mem_faults {source : String} {line : ℕ} {f : Fault}
    (h : (line, f) ∈ faults source) : IsLine source line := by
  obtain ⟨i, hi, hf⟩ := List.mem_filterMap.mp h
  cases i with
  | token u => cases hf
  | fault line' f' =>
    obtain ⟨rfl, rfl⟩ := Prod.mk.inj (Option.some.inj hf)
    exact isLine_of_mem_items hi

/-! ### The order of the lines -/

lemma Reports.pairwise_line {line : ℕ} {ss : List Segment} {is : List Item}
    (h : Reports line ss is) : is.Pairwise (·.line ≤ ·.line) := by
  induction h with
  | nil => exact .nil
  | skipped _ _ ih => exact ih
  | token h ih => exact List.pairwise_cons.mpr ⟨fun i hi => (h.line_bounds i hi).1, ih⟩
  | fault h ih => exact List.pairwise_cons.mpr ⟨fun i hi => (h.line_bounds i hi).1, ih⟩

lemma pairwise_line_items (source : String) : (items source).Pairwise (·.line ≤ ·.line) := by
  obtain ⟨is, hreports, hitems⟩ := exists_reports 1 (segments source.toList)
  have hall : items source = _ := hitems
  rw [hall, List.pairwise_append]
  refine ⟨hreports.pairwise_line, List.pairwise_singleton _ _, fun i hi j hj => ?_⟩
  obtain rfl := List.mem_singleton.mp hj
  exact (hreports.line_bounds i hi).2

/-- The lines of the tokens never go back. -/
theorem pairwise_line_tokens (source : String) :
    (tokens source).Pairwise (·.line ≤ ·.line) := by
  refine (pairwise_line_items source).filterMap _ fun i j hij t ht u hu => ?_
  cases i with
  | fault => cases ht
  | token t' =>
    cases j with
    | fault => cases hu
    | token u' =>
      cases ht
      cases hu
      exact hij

end Lox.Source
