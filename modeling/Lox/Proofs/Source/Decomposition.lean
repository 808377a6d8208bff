import Lox.Source.Item
import Lox.Proofs.Source.Lexeme

/-!
A source is taken apart by longest match and without loss.

The segments of a source are the only ones that stand one after another from its front to its end.
They are the slices of the source between consecutive positions, each of which is the boundary of a
character, and the items are those of the segments, with the end of input behind them.
-/

namespace Lox.Source

/-! ### One segment -/

lemma first_lineComment {body rest : List Char} (hbody : '\n' ∉ body)
    (hrest : ∀ c ∈ rest.head?, c = '\n') :
    first '/' ('/' :: (body ++ rest)) = (⟨'/' :: '/' :: body, .comment⟩, rest) := by
  have hline : lineComment ('/' :: (body ++ rest)) = (⟨'/' :: '/' :: body, .comment⟩, rest) := by
    have hslash : '\n' ∉ '/' :: body := List.not_mem_cons_of_ne_of_not_mem (by decide) hbody
    rw [← List.cons_append]
    unfold lineComment
    cases rest with
    | nil =>
      obtain ⟨htake, hdrop⟩ := takeWhile_of_not_mem hslash
      rw [List.append_nil, htake, hdrop]
    | cons c rest =>
      obtain rfl := hrest c rfl
      obtain ⟨htake, hdrop⟩ := takeWhile_append_cons hslash rest
      rw [htake, hdrop]
  exact hline

lemma first_unterminatedString {body : List Char} (h : '\"' ∉ body) :
    first '\"' body = (⟨'\"' :: body, .fault .unterminatedString⟩, []) := by
  obtain ⟨htake, hdrop⟩ := takeWhile_of_not_mem h
  change string body = _
  unfold string
  rw [htake, hdrop]

/-- Where a token stands, what is read is this token. -/
lemma first_token {c : Char} {cs text rest : List Char} {k : Kind} (hk : Lexeme text k)
    (hcomment : ¬OpensComment (text ++ rest))
    (hlongest : ∀ text' k', Lexeme text' k' → text' <+: text ++ rest → text'.length ≤ text.length)
    (htext : text ++ rest = c :: cs) : first c cs = (⟨text, .token k⟩, rest) := by
  have hfinds := finds_first c cs
  have hjoined := joined_first c cs
  unfold Finds at hfinds
  unfold joined at hjoined
  rw [htext] at hcomment hlongest
  obtain ⟨c', text, rfl⟩ := List.exists_cons_of_ne_nil hk.ne_nil
  obtain rfl : c' = c := (List.cons.inj htext).1
  generalize first c' cs = p at hfinds hjoined ⊢
  obtain ⟨⟨text', role⟩, rest'⟩ := p
  cases hfinds with
  | blank hblank =>
    cases hjoined
    rw [← isBlank_iff, hk.not_isBlank] at hblank
    cases hblank
  | lineComment => exact absurd (.inl ⟨_, hjoined⟩) hcomment
  | blockComment => exact absurd (.inr ⟨_, hjoined⟩) hcomment
  | token hk' _ hlongest' =>
    dsimp only at hjoined
    rw [hjoined] at hlongest'
    -- both are longest, so they are as long, and so they are the same
    have hle := hlongest _ _ hk' ⟨_, hjoined⟩
    have hle' := hlongest' _ _ hk ⟨_, htext⟩
    obtain ⟨rfl, rfl⟩ := List.append_inj (hjoined.trans htext.symm) (hle.antisymm hle')
    rw [hk.kind_eq hk']
  | unexpected _ _ hnone =>
    rw [List.singleton_append] at hjoined
    rw [hjoined] at hnone
    exact absurd ⟨_, htext⟩ (hnone _ _ hk)
  | unterminatedString hbody =>
    have htexts := htext.trans hjoined.symm
    obtain ⟨rfl, -⟩ := List.cons.inj hjoined
    obtain ⟨body, -, rfl, -⟩ := hk.quoted
    have hmem : '\"' ∈ body ++ ['\"'] ++ rest := by simp
    rw [List.append_nil, List.cons_append, List.cons.injEq] at htexts
    exact absurd (htexts.2 ▸ hmem) hbody
  | unterminatedComment => exact absurd (.inr ⟨_, hjoined⟩) hcomment

/-- Where a character stands that begins nothing, it is read alone. -/
lemma first_unexpected {c : Char} {cs : List Char} (hc : c ∉ ['\"', ' ', '\r', '\t', '\n'])
    (hcomment : ¬OpensComment (c :: cs)) (hnone : ∀ text k, Lexeme text k → ¬text <+: c :: cs) :
    first c cs = (⟨[c], .fault .unexpectedCharacter⟩, cs) := by
  obtain ⟨hquote, hblank⟩ := not_or.mp (List.mem_cons.not.mp hc)
  have hfinds := finds_first c cs
  have hjoined := joined_first c cs
  unfold Finds at hfinds
  unfold joined at hjoined
  generalize first c cs = p at hfinds hjoined ⊢
  obtain ⟨⟨text', role⟩, rest'⟩ := p
  cases hfinds with
  | blank h =>
    cases hjoined
    exact absurd h hblank
  | lineComment => exact absurd (.inl ⟨_, hjoined⟩) hcomment
  | blockComment => exact absurd (.inr ⟨_, hjoined⟩) hcomment
  | token hk => exact absurd ⟨_, hjoined⟩ (hnone _ _ hk)
  | unexpected =>
    cases hjoined
    rfl
  | unterminatedString => exact absurd (List.cons.inj hjoined).1.symm hquote
  | unterminatedComment => exact absurd (.inr ⟨_, hjoined⟩) hcomment

/-- Only what is read stands at the front. -/
theorem first_eq_of_stands {c : Char} {cs text rest : List Char} {role : Role}
    (h : Stands role text rest) (htext : text ++ rest = c :: cs) :
    first c cs = (⟨text, role⟩, rest) := by
  cases h with
  | blank hc =>
    cases htext
    exact if_pos (isBlank_iff.mpr hc)
  | lineComment hbody hrest =>
    cases htext
    exact first_lineComment hbody hrest
  | @blockComment body rest hbody =>
    cases htext
    change blockComment (body ++ rest) = _
    rw [blockComment, hbody.commentLength?]
    simp
  | token hk hcomment hlongest => exact first_token hk hcomment hlongest htext
  | unexpected hc hcomment hnone =>
    cases htext
    exact first_unexpected hc hcomment hnone
  | unterminatedString hbody =>
    rw [List.append_nil] at htext
    cases htext
    exact first_unterminatedString hbody
  | @unterminatedComment body hbody =>
    rw [List.append_nil] at htext
    cases htext
    change blockComment body = _
    rw [blockComment, commentLength?_eq_none_iff.mpr hbody]

/-! ### All segments -/

/-- Segments that stand one after another, from the front of a text to its end. -/
inductive Decomposes : List Char → List Segment → Prop
  | nil : Decomposes [] []
  | cons {s rest ss} : Stands s.role s.text rest → Decomposes rest ss →
      Decomposes (s.text ++ rest) (s :: ss)

lemma Stands.ne_nil {role : Role} {text rest : List Char} (h : Stands role text rest) :
    text ≠ [] := by
  cases h with
  | token hk => exact hk.ne_nil
  | _ => exact List.cons_ne_nil _ _

lemma segments_induction {motive : List Char → Prop} (nil : motive [])
    (cons : ∀ c cs, motive (first c cs).2 → motive (c :: cs)) (cs : List Char) : motive cs := by
  generalize hn : cs.length = n
  induction n using Nat.strong_induction_on generalizing cs with
  | _ n ih =>
    cases cs with
    | nil => exact nil
    | cons c cs => exact cons c cs (ih _ (hn ▸ Nat.lt_succ_of_le (first_rest_length c cs)) _ rfl)

/-- The segments of a text are the only ones that stand one after another in it. -/
theorem decomposes_iff {cs : List Char} {ss : List Segment} :
    Decomposes cs ss ↔ ss = segments cs := by
  constructor
  · intro h
    induction h with
    | nil => rw [segments_nil]
    | @cons s rest ss hs _ ih =>
      obtain ⟨c, cs, htext⟩ := List.exists_cons_of_ne_nil
        (List.append_ne_nil_of_left_ne_nil hs.ne_nil rest)
      rw [htext, segments_cons, first_eq_of_stands hs htext, ih]
  · rintro rfl
    induction cs using segments_induction with
    | nil =>
      rw [segments_nil]
      exact .nil
    | cons c cs ih =>
      have hjoined := joined_first c cs
      unfold joined at hjoined
      rw [segments_cons]
      nth_rewrite 1 [← hjoined]
      exact .cons (finds_first c cs) ih

lemma Decomposes.exists_stands {cs : List Char} {ss : List Segment} (h : Decomposes cs ss) :
    ∀ s ∈ ss, ∃ rest, Stands s.role s.text rest := by
  induction h with
  | nil => exact List.forall_mem_nil _
  | cons hs _ ih => exact List.forall_mem_cons.mpr ⟨⟨_, hs⟩, ih⟩

lemma exists_stands_of_mem_segments {cs : List Char} {s : Segment} (h : s ∈ segments cs) :
    ∃ rest, Stands s.role s.text rest := (decomposes_iff.mpr rfl).exists_stands s h

/-- The end of input is no segment. -/
lemma role_ne_of_mem_segments (cs : List Char) : ∀ s ∈ segments cs, s.role ≠ .token .eof := by
  intro s hs hrole
  obtain ⟨rest, hstands⟩ := exists_stands_of_mem_segments hs
  rw [hrole] at hstands
  cases hstands with
  | token hk => exact hk.kind_ne_eof rfl

/-! ### Positions -/

/-- Segments that are the slices of a source between consecutive positions, from one on. -/
inductive Covers (source : String) : source.Pos → List Segment → Prop
  | nil : Covers source source.endPos []
  | cons {p q : source.Pos} {s ss} : p < q → source.extract p q = String.ofList s.text →
      Covers source q ss → Covers source p (s :: ss)

lemma Decomposes.covers {cs : List Char} {ss : List Segment} (h : Decomposes cs ss)
    {source : String} {front : String} {p : source.Pos} (hp : p.Splits front (String.ofList cs)) :
    Covers source p ss := by
  induction h generalizing front p with
  | nil =>
    have hend : p = source.endPos := by
      have hsource := hp.eq_append
      rw [String.ofList_nil, String.append_empty] at hsource
      subst hsource
      exact hp.pos_eq (String.splits_endPos source)
    rw [hend]
    exact .nil
  | @cons s rest ss hs _ ih =>
    rw [String.ofList_append] at hp
    have hsource : source = (front ++ String.ofList s.text) ++ String.ofList rest := by
      rw [hp.eq_append, String.append_assoc]
    have hq := String.Pos.splits_ofEqAppend hsource
    have hlt : p < String.Pos.ofEqAppend hsource := by
      refine (hp.lt_iff_exists_eq_append hq).mpr ⟨String.ofList s.text, ?_, rfl, rfl⟩
      exact fun h => hs.ne_nil (by simpa using h)
    obtain ⟨hle, hslice⟩ := String.copy_slice_eq_iff_splits.mpr ⟨_, _, hp, hq⟩
    exact .cons hlt ((String.extract_eq_copy_slice _ _ hle).trans hslice) (ih hq)

/-! ### Items -/

/-- The items of segments that start on a line. Blanks and comments have none. -/
inductive Reports : ℕ → List Segment → List Item → Prop
  | nil {line} : Reports line [] []
  | skipped {line s ss is} : s.role = .blank ∨ s.role = .comment →
      Reports (line + lineBreaks s.text) ss is → Reports line (s :: ss) is
  | token {line text k ss is} : Reports (line + lineBreaks text) ss is →
      Reports line (⟨text, .token k⟩ :: ss)
        (.token ⟨k, String.ofList text, line + lineBreaks text⟩ :: is)
  | fault {line text f ss is} : Reports (line + lineBreaks text) ss is →
      Reports line (⟨text, .fault f⟩ :: ss) (.fault (line + lineBreaks text) f :: is)

lemma itemsAfter_eq (found : List Item) (line : ℕ) (ss : List Segment) :
    itemsAfter found line ss = found.reverse ++ itemsAfter [] line ss := by
  induction ss generalizing found line with
  | nil => simp [itemsAfter]
  | cons s ss ih =>
    rw [itemsAfter, itemsAfter, ih, ih (_ ++ [])]
    simp

lemma itemsAfter_cons (line : ℕ) (s : Segment) (ss : List Segment) :
    itemsAfter [] line (s :: ss) = (s.item? (line + lineBreaks s.text)).toList ++
      itemsAfter [] (line + lineBreaks s.text) ss := by
  rw [itemsAfter, itemsAfter_eq, List.append_nil]
  unfold Segment.item?
  cases s.role <;> rfl

/-- The items of segments do not depend on those after them, nor these on them but for the lines. -/
lemma exists_reports_append (line : ℕ) (ss : List Segment) : ∃ is, Reports line ss is ∧ ∀ more,
    itemsAfter [] line (ss ++ more) =
      is ++ itemsAfter [] (line + lineBreaks (ss.flatMap (·.text))) more := by
  induction ss generalizing line with
  | nil => exact ⟨[], .nil, fun more => rfl⟩
  | cons s ss ih =>
    obtain ⟨is, his, hitems⟩ := ih (line + lineBreaks s.text)
    have hline : line + lineBreaks s.text + lineBreaks (ss.flatMap (·.text)) =
        line + lineBreaks ((s :: ss).flatMap (·.text)) := by
      rw [List.flatMap_cons, lineBreaks, lineBreaks, lineBreaks, List.count_append, Nat.add_assoc]
    rw [hline] at hitems
    simp only [List.cons_append, itemsAfter_cons, hitems]
    obtain ⟨text, role⟩ := s
    cases role with
    | blank => exact ⟨is, .skipped (.inl rfl) his, fun more => rfl⟩
    | comment => exact ⟨is, .skipped (.inr rfl) his, fun more => rfl⟩
    | token k => exact ⟨_, .token his, fun more => rfl⟩
    | fault f => exact ⟨_, .fault his, fun more => rfl⟩

lemma exists_reports (line : ℕ) (ss : List Segment) : ∃ is, Reports line ss is ∧
    itemsAfter [] line ss =
      is ++ [.token ⟨.eof, "", line + lineBreaks (ss.flatMap (·.text))⟩] := by
  obtain ⟨is, his, hitems⟩ := exists_reports_append line ss
  have hall := hitems []
  rw [List.append_nil] at hall
  exact ⟨is, his, hall⟩

lemma Decomposes.flatMap_text {cs : List Char} {ss : List Segment} (h : Decomposes cs ss) :
    ss.flatMap (·.text) = cs := by
  induction h with
  | nil => rfl
  | cons _ _ ih => rw [List.flatMap_cons, ih]

lemma Reports.kind_ne {line : ℕ} {ss : List Segment} {is : List Item} (h : Reports line ss is)
    (hss : ∀ s ∈ ss, s.role ≠ .token .eof) : ∀ t, Item.token t ∈ is → t.kind ≠ .eof := by
  induction h with
  | nil => exact fun t ht => absurd ht List.not_mem_nil
  | skipped _ _ ih => exact ih (List.forall_mem_cons.mp hss).2
  | token _ ih =>
    obtain ⟨hs, hss⟩ := List.forall_mem_cons.mp hss
    intro t ht
    obtain ht | ht := List.mem_cons.mp ht
    · cases ht
      exact fun hk => hs (congrArg Role.token hk)
    · exact ih hss t ht
  | fault _ ih =>
    intro t ht
    obtain ht | ht := List.mem_cons.mp ht
    · cases ht
    · exact ih (List.forall_mem_cons.mp hss).2 t ht

lemma reports_segments (source : String) : ∃ is, Reports 1 (segments source.toList) is ∧
    items source = is ++ [.token ⟨.eof, "", 1 + lineBreaks source.toList⟩] := by
  have hdecomposes : Decomposes source.toList (segments source.toList) := decomposes_iff.mpr rfl
  obtain ⟨is, hreports, hitems⟩ := exists_reports 1 (segments source.toList)
  rw [hdecomposes.flatMap_text] at hitems
  exact ⟨is, hreports, hitems⟩

lemma Reports.exists_fault_iff {line : ℕ} {ss : List Segment} {is : List Item}
    (h : Reports line ss is) {f : Fault} :
    (∃ l, Item.fault l f ∈ is) ↔ ∃ s ∈ ss, s.role = .fault f := by
  induction h with
  | nil => simp
  | @skipped line s ss is hrole _ ih =>
    have hs : s.role ≠ .fault f := by rcases hrole with h | h <;> simp [h]
    simp [ih, hs]
  | token _ ih => simp [ih]
  | fault _ ih => simp [exists_or, ih, eq_comm]

/-- A fault is reported if a segment has it. -/
lemma exists_mem_faults_iff {source : String} {f : Fault} :
    (∃ line, (line, f) ∈ faults source) ↔ ∃ s ∈ segments source.toList, s.role = .fault f := by
  obtain ⟨is, hreports, hitems⟩ := reports_segments source
  rw [← hreports.exists_fault_iff]
  refine exists_congr fun line => ?_
  rw [faults, hitems, List.mem_filterMap]
  constructor
  · rintro ⟨i, hi, hfault⟩
    cases i with
    | token t => cases hfault
    | fault line' f' =>
      cases hfault
      simpa using hi
  · exact fun h => ⟨_, List.mem_append_left _ h, rfl⟩

/-- The items of a source are those of the only segments that stand one after another in it, each
the longest that is written where it begins. The segments cover the source between consecutive
positions, and one end of input comes last. -/
theorem items_decompose (source : String) : ∃ (ss : List Segment) (is : List Item),
    Decomposes source.toList ss ∧ (∀ ss', Decomposes source.toList ss' → ss' = ss) ∧
    Covers source source.startPos ss ∧ Reports 1 ss is ∧
    (∀ t, Item.token t ∈ is → t.kind ≠ .eof) ∧
    items source = is ++ [.token ⟨.eof, "", 1 + lineBreaks source.toList⟩] := by
  have hdecomposes : Decomposes source.toList (segments source.toList) := decomposes_iff.mpr rfl
  obtain ⟨is, hreports, hitems⟩ := exists_reports 1 (segments source.toList)
  rw [hdecomposes.flatMap_text] at hitems
  refine ⟨segments source.toList, is, hdecomposes, fun _ => decomposes_iff.mp, ?_, hreports,
    hreports.kind_ne (role_ne_of_mem_segments _), hitems⟩
  have hstart : source.startPos.Splits "" (String.ofList source.toList) := by
    rw [String.ofList_toList]
    exact String.splits_startPos source
  exact hdecomposes.covers hstart

end Lox.Source
