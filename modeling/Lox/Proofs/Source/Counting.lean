import Lox.Source.Scan
import Lox.Proofs.Source.Lines

/-!
The counter of lines is exact.

Line breaks are counted in three places, and comments to the end of the line are jumped over. Each
of these counts the line breaks of what it reads, closed or not, so the counter is always one more
than the number of line breaks read so far.
-/

namespace Lox.Source

/-! ### Exact lines -/

/-- The line on which a text ends: they are numbered from one. -/
def lineAfter (front : List Char) : ℕ := 1 + lineBreaks front

/-- With `front` read and `rest` still to be read, these are the items to come: each has the line
on which the text ends that is read by then. -/
inductive Yields : List Char → List Char → List Item → Prop
  | done {front} : Yields front [] [.token ⟨.eof, "", lineAfter front⟩]
  | skips {front role text rest items} (h : Stands role text rest)
    (hrole : role = .blank ∨ role = .comment) (hmore : Yields (front ++ text) rest items) :
    Yields front (text ++ rest) items
  | token {front k text rest items} (h : Stands (.token k) text rest)
    (hmore : Yields (front ++ text) rest items) :
    Yields front (text ++ rest) (.token ⟨k, String.ofList text, lineAfter (front ++ text)⟩ :: items)
  | fault {front f text rest items} (h : Stands (.fault f) text rest)
    (hmore : Yields (front ++ text) rest items) :
    Yields front (text ++ rest) (.fault (lineAfter (front ++ text)) f :: items)

/-- The item is read from `text`, before `rest`: the end of input from nothing at the end. -/
inductive ReadFrom : Item → List Char → List Char → Prop
  | token {k text rest line} (h : Stands (.token k) text rest) :
    ReadFrom (.token ⟨k, String.ofList text, line⟩) text rest
  | fault {f text rest line} (h : Stands (.fault f) text rest) : ReadFrom (.fault line f) text rest
  | eof {line} : ReadFrom (.token ⟨.eof, "", line⟩) [] []

variable {line depth : ℕ} {c : Char} {cs text body rest : List Char}

/-! ### One character -/

lemma countChar_add (line : ℕ) (c : Char) (cs : List Char) :
    countChar line c + lineBreaks cs = line + lineBreaks (c :: cs) := by
  unfold countChar lineBreaks
  by_cases hc : c = '\n'
  · subst hc
    rw [if_pos rfl, List.count_cons_self, Nat.add_assoc, Nat.add_comm 1]
  · rw [if_neg hc, List.count_cons_of_ne hc]

lemma lineBreaks_of_not_mem (h : '\n' ∉ cs) : lineBreaks cs = 0 := List.count_eq_zero.mpr h

/-! ### Strings -/

lemma countString_append (h : '\"' ∉ body) :
    countString line (body ++ rest) = countString (line + lineBreaks body) rest := by
  induction body generalizing line with
  | nil => rfl
  | cons c cs ih =>
    have hc : c ≠ '\"' := fun hc => h (hc ▸ List.mem_cons_self)
    rw [List.cons_append, countString, if_neg hc, ih (fun hcs => h (List.mem_cons_of_mem c hcs)),
      countChar_add]

/-- A string is counted up to its closing quote. -/
lemma countString_closed (h : '\"' ∉ body) :
    countString line (body ++ ['\"'] ++ rest) = line + lineBreaks ('\"' :: (body ++ ['\"'])) := by
  have hbreaks : lineBreaks ('\"' :: (body ++ ['\"'])) = lineBreaks body := by simp [lineBreaks]
  rw [List.append_assoc, countString_append h, hbreaks]
  rfl

/-- A string that is never closed is counted to its end. -/
lemma countString_open (h : '\"' ∉ body) : countString line body = line + lineBreaks body := by
  have happend : countString line (body ++ []) = countString (line + lineBreaks body) [] :=
    countString_append h
  rwa [List.append_nil] at happend

/-! ### Block comments -/

/-- Neither end of a comment begins here, so one character is read. -/
lemma countComment_other (hopen : ∀ r, c = '/' → cs ≠ '*' :: r)
    (hclose : ∀ r, c = '*' → cs ≠ '/' :: r) :
    countComment depth line (c :: cs) = countComment depth (countChar line c) cs :=
  countComment.eq_5 depth line c cs hopen hclose

/-- A comment that is closed is counted up to its end. -/
lemma countComment_append (h : CommentRest depth body) :
    countComment depth line (body ++ rest) = line + lineBreaks body := by
  induction h generalizing line with
  | close => rfl
  | closeInner _ ih => exact ih
  | openInner _ ih => exact ih
  | @other depth c r hopen hclose hr ih =>
    -- there is a second character in the comment, so neither end begins at the first
    obtain ⟨d, r, rfl⟩ := List.exists_cons_of_ne_nil hr.ne_nil
    rw [List.cons_append, countComment_other, ih, countChar_add]
    · rintro r' rfl h
      obtain ⟨rfl, -⟩ := List.cons.inj h
      exact hopen ⟨r, rfl⟩
    · rintro r' rfl h
      obtain ⟨rfl, -⟩ := List.cons.inj h
      exact hclose ⟨r, rfl⟩

/-- A comment that is never closed is counted to its end. -/
lemma countComment_of_open {seen : ℕ} (h : commentLength? depth seen cs = none) :
    countComment depth line cs = line + lineBreaks cs := by
  fun_induction commentLength? depth seen cs generalizing line with
  | case1 => rfl
  | case2 depth seen r ih => exact ih h
  | case3 => cases h
  | case4 seen r d ih => exact ih h
  | case5 depth seen c r hopen hclose ih =>
    rw [countComment_other hopen hclose, ih h, countChar_add]

/-! ### Segments -/

/-- Only a string may hold a line break. -/
lemma Lexeme.not_mem {k : Kind} (h : Lexeme text k) (hk : ∀ s, k ≠ .string s) : '\n' ∉ text :=
  fun hmem => absurd (h.forall_not_isBlank hk _ hmem) (by decide)

/-- Where neither a string nor a block comment begins, the first character alone is counted. -/
lemma countFirst_of_plain (hquote : c ≠ '\"') (hopen : ¬['/', '*'] <+: c :: cs) :
    countFirst line c cs = countChar line c := by
  unfold countFirst
  rw [if_neg hquote]
  split
  · rename_i hslash
    subst hslash
    split
    · rename_i r
      exact absurd ⟨r, rfl⟩ hopen
    · rfl
  · rfl

lemma countFirst_of_lexeme {k : Kind} (h : Lexeme text k) (hopen : ¬OpensComment (text ++ rest))
    (htext : text ++ rest = c :: cs) : countFirst line c cs = line + lineBreaks text := by
  by_cases hk : ∃ s, k = .string s
  · obtain ⟨s, rfl⟩ := hk
    cases h with
    | string hbody =>
      cases htext
      exact countString_closed hbody
  · have hnone : '\n' ∉ text := h.not_mem fun s hs => hk ⟨s, hs⟩
    obtain ⟨c', text, rfl⟩ := List.exists_cons_of_ne_nil h.ne_nil
    obtain ⟨rfl, rfl⟩ := List.cons.inj htext
    have hquote : c' ≠ '\"' := by
      rintro rfl
      obtain ⟨body, -, -, rfl⟩ := h.quoted
      exact hk ⟨_, rfl⟩
    have hbreak : c' ≠ '\n' := fun hc => hnone (hc ▸ List.mem_cons_self)
    rw [countFirst_of_plain hquote fun h => hopen (.inr h), lineBreaks_of_not_mem hnone]
    exact if_neg hbreak

/-- The counter after a segment counts the line breaks in it. -/
theorem countFirst_of_stands {role : Role} (h : Stands role text rest)
    (htext : text ++ rest = c :: cs) : countFirst line c cs = line + lineBreaks text := by
  have hplain : ∀ {c}, c ≠ '\"' → ¬['/', '*'] <+: c :: cs →
      countFirst line c cs = line + lineBreaks [c] := fun hquote hopen =>
    (countFirst_of_plain hquote hopen).trans (countChar_add line _ [])
  cases h with
  | blank hc =>
    cases htext
    refine hplain ?_ ?_
    · rintro rfl
      exact absurd hc (by decide)
    · rintro ⟨r, hr⟩
      obtain ⟨rfl, -⟩ := List.cons.inj hr
      exact absurd hc (by decide)
  | lineComment hbody _ =>
    cases htext
    rw [lineBreaks_of_not_mem]
    · rfl
    · simpa using hbody
  | blockComment hbody =>
    cases htext
    exact countComment_append hbody
  | token hk hopen _ => exact countFirst_of_lexeme hk hopen htext
  | unexpected hc hopen _ =>
    cases htext
    exact hplain (fun hquote => hc (hquote ▸ List.mem_cons_self)) fun h => hopen (.inr h)
  | unterminatedString hbody =>
    rw [List.append_nil] at htext
    cases htext
    exact countString_open hbody
  | unterminatedComment hbody =>
    rw [List.append_nil] at htext
    cases htext
    exact countComment_of_open (commentLength?_eq_none_iff.mpr hbody)

/-! ### The scan -/

theorem scanAfter_eq (found : List Item) (line : ℕ) (cs : List Char) :
    scanAfter found line cs = itemsAfter found line (segments cs) := by
  induction cs using segments_induction generalizing found line with
  | nil => rw [scanAfter, segments_nil, itemsAfter]
  | cons c cs ih =>
    rw [scanAfter, segments_cons, itemsAfter,
      countFirst_of_stands (finds_first c cs) (joined_first c cs)]
    exact ih ..

/-- What stands at the front gives the first item, if it has one. -/
lemma scanAfter_of_stands {role : Role} (h : Stands role text rest) (line : ℕ) :
    scanAfter [] line (text ++ rest) =
      (Segment.item? ⟨text, role⟩ (line + lineBreaks text)).toList ++
        scanAfter [] (line + lineBreaks text) rest := by
  obtain ⟨c, cs, htext⟩ := List.exists_cons_of_ne_nil
    (List.append_ne_nil_of_left_ne_nil h.ne_nil rest)
  rw [htext, scanAfter, countFirst_of_stands h htext, first_eq_of_stands h htext, List.append_nil,
    scanAfter_eq, itemsAfter_eq, ← scanAfter_eq]
  cases role <;> rfl

lemma lineAfter_append (front text : List Char) :
    lineAfter (front ++ text) = lineAfter front + lineBreaks text := by
  rw [lineAfter, lineAfter, lineBreaks, List.count_append, Nat.add_assoc]
  rfl

theorem yields_iff {front : List Char} {items : List Item} :
    Yields front cs items ↔ items = scanAfter [] (lineAfter front) cs := by
  constructor
  · intro h
    induction h with
    | done => rw [scanAfter]; rfl
    | skips h hrole _ ih =>
      rw [scanAfter_of_stands h, ih, lineAfter_append]
      obtain rfl | rfl := hrole <;> rfl
    | token h _ ih =>
      rw [scanAfter_of_stands h, ih, lineAfter_append]
      rfl
    | fault h _ ih =>
      rw [scanAfter_of_stands h, ih, lineAfter_append]
      rfl
  · rintro rfl
    induction cs using segments_induction generalizing front with
    | nil =>
      rw [scanAfter]
      exact .done
    | cons c cs ih =>
      have hstands := finds_first c cs
      have hjoined := joined_first c cs
      unfold Finds at hstands
      unfold joined at hjoined
      replace ih := @ih (front ++ (first c cs).1.text)
      rw [← hjoined, scanAfter_of_stands hstands, ← lineAfter_append]
      generalize (first c cs).1 = s at hstands ih ⊢
      obtain ⟨text, role⟩ := s
      cases role with
      | blank => exact .skips hstands (.inl rfl) ih
      | comment => exact .skips hstands (.inr rfl) ih
      | token k => exact .token hstands ih
      | fault f => exact .fault hstands ih

/-- Each item is read from a stretch of the source, and stands on the line where this ends. -/
lemma Yields.exists_readFrom {front : List Char} {items : List Item} (h : Yields front cs items) :
    ∀ i ∈ items, ∃ before text rest, front ++ cs = before ++ text ++ rest ∧ ReadFrom i text rest ∧
      i.line = lineAfter (before ++ text) := by
  induction h with
  | @done front =>
    intro i hi
    obtain rfl := List.mem_singleton.mp hi
    exact ⟨front, [], [], by simp, .eof, by rw [List.append_nil]; rfl⟩
  | skips h _ _ ih =>
    rw [← List.append_assoc]
    exact ih
  | @token front k text rest items h _ ih =>
    rw [← List.append_assoc]
    exact List.forall_mem_cons.mpr ⟨⟨front, text, rest, rfl, .token h, rfl⟩, ih⟩
  | @fault front f text rest items h _ ih =>
    rw [← List.append_assoc]
    exact List.forall_mem_cons.mpr ⟨⟨front, text, rest, rfl, .fault h, rfl⟩, ih⟩

/-- What is not closed reaches to the end. -/
lemma Stands.rest_eq_nil {f : Fault} (h : Stands (.fault f) text rest)
    (hf : f ≠ .unexpectedCharacter) : rest = [] := by
  cases h with
  | unexpected => exact absurd rfl hf
  | unterminatedString | unterminatedComment => rfl

/-- The lines of a scan are exact. Each item, in order, has the line that is one more than the
number of line breaks up to the end of the text read for it, with the blanks and comments in front
of it. So a string stands on its last line, and any other token on the line where it begins, and
what is not closed and the end of input stand on the last line of the source. -/
theorem scan_lines_exact (source : String) :
    (∀ is, Yields [] source.toList is ↔ is = scan source) ∧ items source = scan source ∧
    (∀ t, .token t ∈ scan source → ∃ before rest,
      source.toList = before ++ t.lexeme.toList ++ rest ∧
      t.line = lineAfter (before ++ t.lexeme.toList) ∧
      ((∀ s, t.kind ≠ .string s) → t.line = lineAfter before)) ∧
    (∀ t, .token t ∈ scan source → t.kind = .eof → t.line = lineAfter source.toList) ∧
    ∀ line f, .fault line f ∈ scan source → f ≠ .unexpectedCharacter →
      line = lineAfter source.toList := by
  have hyields : Yields [] source.toList (scan source) := yields_iff.mpr rfl
  have hread := hyields.exists_readFrom
  rw [List.nil_append] at hread
  refine ⟨fun is => yields_iff, (scanAfter_eq ..).symm, fun t ht => ?_, fun t ht hk => ?_,
    fun line f hfault hf => ?_⟩
  · obtain ⟨before, text, rest, hsource, hfrom, hline⟩ := hread _ ht
    rw [hsource]
    cases hfrom with
    | token h =>
      cases h with
      | @token _ k _ hk =>
        refine ⟨before, rest, by rw [String.toList_ofList], by rwa [String.toList_ofList], ?_⟩
        intro hstring
        refine hline.trans ?_
        rw [lineAfter_append, lineBreaks_of_not_mem (hk.not_mem hstring), Nat.add_zero]
    | eof =>
      refine ⟨before, [], rfl, hline, fun _ => ?_⟩
      rwa [List.append_nil] at hline
  · obtain ⟨before, text, rest, hsource, hfrom, hline⟩ := hread _ ht
    cases hfrom with
    | token h =>
      cases h with
      | token hlexeme => exact absurd hk hlexeme.kind_ne_eof
    | eof =>
      rw [hsource, List.append_nil]
      exact hline
  · obtain ⟨before, text, rest, hsource, hfrom, hline⟩ := hread _ hfault
    cases hfrom with
    | fault h =>
      rw [hsource, h.rest_eq_nil hf, List.append_nil]
      exact hline

/-- A comment over two lines, one to the end of its line, a string over two lines and one that is
not closed. -/
example : (scan "/* a /* b\n */ */ x // y\n\"p\nq\"\n\"r").map Item.line = [2, 4, 5, 5] := by
  decide +kernel

end Lox.Source
