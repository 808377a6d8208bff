import Lox.Proofs.Source.Decomposition

/-!
How far one looks ahead to tell what stands at the front.

Only strings and comments may hold blanks, and how these end is told from their own text. So what
stands at the front of a text does not depend on what comes behind the first blank after it, and
any token stands where its text does with a blank or nothing behind it.
-/

namespace Lox.Source

/-- There are no blanks in the text. -/
def Solid (w : List Char) : Prop := ∀ c ∈ w, isBlank c = false

variable {text rest rest' : List Char} {k : Kind} {role : Role}

lemma Solid.of_append {w more : List Char} {c : Char} (hw : Solid w) (hc : isBlank c)
    (h : w <+: text ++ c :: more) : w <+: text := by
  have hnot : c ∉ w := fun hmem => by
    rw [hw c hmem] at hc
    cases hc
  have hthrough : text ++ [c] <+: text ++ c :: more := ⟨more, by simp⟩
  obtain h | h := List.prefix_or_prefix_of_prefix h hthrough
  · obtain rfl | h := List.prefix_concat_iff.mp h
    · exact absurd (by simp) hnot
    · exact h
  · exact absurd (h.subset (by simp)) hnot

/-- A string ends at the next quote. -/
lemma length_le_of_closed {body body' : List Char} (hbody' : '\"' ∉ body')
    (h : body' ++ ['\"'] <+: body ++ ['\"'] ++ rest) : body'.length ≤ body.length := by
  by_contra hlt
  have hpre : body ++ ['\"'] <+: body' := by
    refine List.prefix_of_prefix_length_le (List.prefix_append _ rest)
      ((List.prefix_append _ _).trans h) ?_
    rw [List.length_append, List.length_singleton]
    omega
  exact hbody' (hpre.subset (by simp))

/-- A string that begins where a token does is no longer than this. -/
lemma Lexeme.length_le_of_string {text' : List Char} {s : String} (h : Lexeme text k)
    (h' : Lexeme text' (.string s)) (hpre : text' <+: text ++ rest) :
    text'.length ≤ text.length := by
  obtain ⟨c, cs, rfl⟩ := List.exists_cons_of_ne_nil h.ne_nil
  cases h' with
  | @string body' hbody' =>
    obtain ⟨rfl, htail⟩ := List.cons_prefix_cons.mp hpre
    obtain ⟨body, -, rfl, -⟩ := h.quoted
    have hle := length_le_of_closed hbody' htail
    simpa using hle

/-- What stands at the front of a text stands there with another text behind it, too, if this
begins no longer stretch without blanks. -/
lemma Stands.before (h : Stands role text rest)
    (hclosed : ∀ f, role = .fault f → f = .unexpectedCharacter)
    (hsolid : ∀ w, Solid w → w <+: text ++ rest' → w <+: text ++ rest)
    (hline : role = .comment → (∀ c ∈ rest.head?, c = '\n') → ∀ c ∈ rest'.head?, c = '\n') :
    Stands role text rest' := by
  have hcomment : OpensComment (text ++ rest') → OpensComment (text ++ rest) :=
    Or.imp (hsolid _ (by simp [Solid, isBlank])) (hsolid _ (by simp [Solid, isBlank]))
  cases h with
  | blank hc => exact .blank hc
  | lineComment hbody hrest => exact .lineComment hbody (hline rfl hrest)
  | blockComment hbody => exact .blockComment hbody
  | token hk hopen hlongest =>
    refine .token hk (fun h => hopen (hcomment h)) fun text' k' h' hpre => ?_
    by_cases hstring : ∃ s, k' = .string s
    · obtain ⟨s, rfl⟩ := hstring
      exact hk.length_le_of_string h' hpre
    · exact hlongest _ _ h' (hsolid _ (h'.forall_not_isBlank (not_exists.mp hstring)) hpre)
  | unexpected hc hopen hnone =>
    refine .unexpected hc (fun h => hopen (hcomment h)) fun text' k' h' hpre => ?_
    by_cases hstring : ∃ s, k' = .string s
    · obtain ⟨s, rfl⟩ := hstring
      cases h' with
      | string =>
        obtain ⟨rfl, -⟩ := List.cons_prefix_cons.mp hpre
        exact hc List.mem_cons_self
    · exact hnone _ _ h' (hsolid _ (h'.forall_not_isBlank (not_exists.mp hstring)) hpre)
  | unterminatedString => cases hclosed _ rfl
  | unterminatedComment => cases hclosed _ rfl

/-- No token is written like the front of a comment. -/
lemma Lexeme.not_opensComment (h : Lexeme text k) : ¬OpensComment text := by
  obtain ⟨c, cs, rfl⟩ := List.exists_cons_of_ne_nil h.ne_nil
  by_cases hc : c = '/'
  · subst hc
    obtain ⟨s, -, hs⟩ := h.symbolic (by decide) (by decide) (by decide)
    rw [← hs]
    unfold OpensComment
    cases s <;> decide
  · exact Source.not_opensComment hc

/-- A token stands where its text does if a blank or nothing comes behind it. -/
theorem Lexeme.stands (h : Lexeme text k) (hrest : ∀ c ∈ rest.head?, isBlank c) :
    Stands (.token k) text rest := by
  have halone : Stands (.token k) text [] := by
    refine .token h ?_ fun text' k' _ hpre => ?_
    · rw [List.append_nil]
      exact h.not_opensComment
    · rw [List.append_nil] at hpre
      exact hpre.length_le
  refine halone.before nofun (fun w hw hpre => ?_) nofun
  rw [List.append_nil]
  cases rest with
  | nil => rwa [List.append_nil] at hpre
  | cons c rest => exact hw.of_append (hrest c rfl) hpre

end Lox.Source
