import Lox.Proofs.Source.Decomposition

/-!
Block comments nest.

Between the opener and the closer of a block comment stand other block comments, and characters at
which neither of the two begins. Counting how many comments are open finds the end of the only text
that is written so.
-/

namespace Lox.Source

mutual

/-- A block comment: `/*`, its parts, and `*/`. -/
inductive BlockComment : List Char → Prop
  | mk {body} : Parts body ['*', '/'] → BlockComment ('/' :: '*' :: (body ++ ['*', '/']))

/-- The parts of a block comment, with `rest` behind them: block comments, and characters at which
neither `/*` nor `*/` begins. -/
inductive Parts : List Char → List Char → Prop
  | nil {rest} : Parts [] rest
  | comment {text body rest} : BlockComment text → Parts body rest → Parts (text ++ body) rest
  | char {c body rest} : ¬['/', '*'] <+: c :: (body ++ rest) →
      ¬['*', '/'] <+: c :: (body ++ rest) → Parts body rest → Parts (c :: body) rest

end

/-! ### From parts to a count -/

/-- Of what comes behind a text, the first character tells whether two stand at its front. -/
lemma pair_prefix_congr {a b d : Char} {body rest rest' : List Char} (h : rest.head? = rest'.head?)
    (hpre : [a, b] <+: d :: (body ++ rest)) : [a, b] <+: d :: (body ++ rest') := by
  cases body with
  | cons => simpa using hpre
  | nil => cases rest <;> cases rest' <;> simp_all

mutual

/-- Parts do not change how many comments are open behind them. -/
lemma Parts.commentRest {body rest more : List Char} {depth : ℕ} : Parts body rest →
    more.head? = rest.head? → CommentRest depth more → CommentRest depth (body ++ more)
  | .nil, _, hmore => hmore
  | .comment htext hbody, hhead, hmore => by
    rw [List.append_assoc]
    exact BlockComment.commentRest htext (Parts.commentRest hbody hhead hmore)
  | .char hopen hclose hbody, hhead, hmore =>
    .other (fun h => hopen (pair_prefix_congr hhead h))
      (fun h => hclose (pair_prefix_congr hhead h)) (Parts.commentRest hbody hhead hmore)

lemma BlockComment.commentRest {text more : List Char} {depth : ℕ} :
    BlockComment text → CommentRest depth more → CommentRest depth (text ++ more)
  | .mk hbody, hmore => by
    have hinner := Parts.commentRest hbody (by rfl) (CommentRest.closeInner hmore)
    simpa using CommentRest.openInner hinner

end

/-! ### From a count to parts -/

/-- Parts and closers in turn, up to that of the outermost comment. -/
inductive Closings : ℕ → List Char → Prop
  | last {body} : Parts body ['*', '/'] → Closings 0 (body ++ ['*', '/'])
  | next {body depth rest} : Parts body ['*', '/'] → Closings depth rest →
      Closings (depth + 1) (body ++ '*' :: '/' :: rest)

/-- There are parts in front of the first closer, and others may come before them. -/
lemma Closings.exists_parts {depth : ℕ} {text : List Char} (h : Closings depth text) :
    ∃ body rest, text = body ++ '*' :: '/' :: rest ∧ Parts body ['*', '/'] ∧
      ∀ front, Parts (front ++ body) ['*', '/'] → Closings depth (front ++ text) := by
  cases h with
  | @last body hbody =>
    refine ⟨body, [], rfl, hbody, fun front hfront => ?_⟩
    rw [← List.append_assoc]
    exact .last hfront
  | @next body depth rest hbody hrest =>
    refine ⟨body, rest, rfl, hbody, fun front hfront => ?_⟩
    rw [← List.append_assoc]
    exact .next hfront hrest

lemma CommentRest.closings {depth : ℕ} {body : List Char} (h : CommentRest depth body) :
    Closings depth body := by
  induction h with
  | close => exact .last .nil
  | closeInner _ ih => exact .next .nil ih
  | openInner _ ih =>
    -- the first closer behind the opener makes a comment, which is one more part
    cases ih with
    | @next inner depth rest hinner hrest =>
      obtain ⟨body, more, rfl, hbody, hfront⟩ := hrest.exists_parts
      have hclosed := hfront _ (.comment (.mk hinner) hbody)
      simpa using hclosed
  | @other depth c r hopen hclose _ ih =>
    obtain ⟨body, more, rfl, hbody, hfront⟩ := ih.exists_parts
    have hpre : c :: (body ++ ['*', '/']) <+: c :: (body ++ '*' :: '/' :: more) := ⟨more, by simp⟩
    exact hfront [c] (.char (fun h => hopen (h.trans hpre)) (fun h => hclose (h.trans hpre)) hbody)

lemma blockComment_iff {body : List Char} :
    BlockComment ('/' :: '*' :: body) ↔ CommentRest 0 body := by
  constructor
  · intro h
    generalize htext : '/' :: '*' :: body = text at h
    cases h with
    | mk hbody =>
      cases htext
      exact hbody.commentRest rfl .close
  · intro h
    cases h.closings with
    | last hbody => exact .mk hbody

lemma BlockComment.exists_body {text : List Char} (h : BlockComment text) :
    ∃ body, text = '/' :: '*' :: body ∧ CommentRest 0 body := by
  cases h with
  | mk hbody => exact ⟨_, rfl, hbody.commentRest rfl .close⟩

/-- At most one block comment begins at a place. -/
lemma BlockComment.length_eq {text text' cs : List Char} (h : BlockComment text)
    (h' : BlockComment text') (hpre : text <+: cs) (hpre' : text' <+: cs) :
    text.length = text'.length := by
  obtain ⟨body, rfl, hbody⟩ := h.exists_body
  obtain ⟨body', rfl, hbody'⟩ := h'.exists_body
  obtain ⟨rest, rfl⟩ := hpre
  obtain ⟨rest', htexts⟩ := hpre'
  have hrest : body' ++ rest' = body ++ rest := by simpa using htexts
  have hlength := hbody.commentLength? 0 rest
  rw [← hrest, hbody'.commentLength?] at hlength
  simpa using hlength.symm

/-! ### Segments -/

/-- Later segments are those of a text by itself. -/
lemma Decomposes.exists_suffix {cs : List Char} {before ss : List Segment}
    (h : Decomposes cs (before ++ ss)) :
    ∃ rest, cs = before.flatMap (·.text) ++ rest ∧ Decomposes rest ss := by
  induction before generalizing cs with
  | nil => exact ⟨cs, rfl, h⟩
  | cons s before ih =>
    generalize hall : s :: before ++ ss = all at h
    cases h with
    | nil => cases hall
    | cons _ hrest =>
      cases hall
      obtain ⟨rest, rfl, hss⟩ := ih hrest
      exact ⟨rest, by simp, hss⟩

variable {cs text rest : List Char}

lemma segments_of_stands {role : Role} (h : Stands role text rest) :
    segments (text ++ rest) = ⟨text, role⟩ :: segments rest := by
  have hrest : Decomposes rest (segments rest) := decomposes_iff.mpr rfl
  exact (decomposes_iff.mp (.cons (s := ⟨text, role⟩) h hrest)).symm

lemma BlockComment.segments_eq (h : BlockComment text) :
    segments (text ++ rest) = ⟨text, .comment⟩ :: segments rest := by
  obtain ⟨body, rfl, hbody⟩ := h.exists_body
  exact segments_of_stands (.blockComment hbody)

/-- The shortest block comment at the front of a text. -/
structure ShortestComment (text cs : List Char) : Prop where
  comment : BlockComment text
  front : text <+: cs
  least : ∀ text', text' <+: cs → BlockComment text' → text.length ≤ text'.length

/-- No block comment stands at the front of a text. -/
def NoComment (cs : List Char) : Prop := ∀ text, text <+: cs → ¬BlockComment text

/-- What opens a block comment and is none, whatever is left off at its end, is at fault. -/
lemma NoComment.segments_eq (h : NoComment ('/' :: '*' :: cs)) :
    segments ('/' :: '*' :: cs) = [⟨'/' :: '*' :: cs, .fault .unterminatedComment⟩] := by
  have hopen : ∀ front, front <+: cs → ¬CommentRest 0 front := fun front hfront hrest => by
    refine h ('/' :: '*' :: front) ?_ (blockComment_iff.mpr hrest)
    simpa using hfront
  have hsegments := segments_of_stands (.unterminatedComment hopen)
  rwa [List.append_nil, segments_nil] at hsegments

lemma noComment_iff : NoComment ('/' :: '*' :: cs) ↔
    segments ('/' :: '*' :: cs) = [⟨'/' :: '*' :: cs, .fault .unterminatedComment⟩] := by
  refine ⟨NoComment.segments_eq, ?_⟩
  rintro hfault text ⟨rest, htext⟩ hcomment
  rw [← htext, hcomment.segments_eq] at hfault
  exact absurd (Segment.mk.inj (List.cons.inj hfault).1).2 nofun

lemma shortestComment_iff (h : text ++ rest = '/' :: '*' :: cs) :
    ShortestComment text ('/' :: '*' :: cs) ↔
      segments ('/' :: '*' :: cs) = ⟨text, .comment⟩ :: segments rest := by
  constructor
  · intro hshortest
    rw [← h, hshortest.comment.segments_eq]
  · intro hskip
    by_cases hnone : NoComment ('/' :: '*' :: cs)
    · rw [hnone.segments_eq] at hskip
      exact absurd (Segment.mk.inj (List.cons.inj hskip).1).2 nofun
    · -- some comment stands here, so this is the one that is skipped
      simp only [NoComment, not_forall, not_not] at hnone
      obtain ⟨text', ⟨rest', htext'⟩, hcomment⟩ := hnone
      rw [← htext', hcomment.segments_eq] at hskip
      obtain ⟨rfl, -⟩ := Segment.mk.inj (List.cons.inj hskip).1
      refine ⟨hcomment, ⟨rest', htext'⟩, fun text hpre h' => ?_⟩
      exact (hcomment.length_eq h' ⟨rest', htext'⟩ hpre).le

/-- A comment is at fault where one is opened and none stands. -/
lemma exists_unterminatedComment_iff :
    (∃ s ∈ segments text, s.role = .fault .unterminatedComment) ↔
      ∃ before cs, segments text = before ++ segments ('/' :: '*' :: cs) ∧
        NoComment ('/' :: '*' :: cs) := by
  constructor
  · rintro ⟨⟨here, role⟩, hs, rfl⟩
    obtain ⟨before, after, hsplit⟩ := List.append_of_mem hs
    have hall : Decomposes text (before ++ _ :: after) := decomposes_iff.mpr hsplit.symm
    obtain ⟨rest, -, hrest⟩ := hall.exists_suffix
    have hsegments := decomposes_iff.mp hrest
    rw [hsegments] at hsplit
    cases hrest with
    | cons hstands _ =>
      cases hstands with
      | @unterminatedComment body hbody =>
        refine ⟨before, body, by rwa [List.append_nil] at hsplit, fun front hpre hcomment => ?_⟩
        obtain ⟨body', rfl, hbody'⟩ := hcomment.exists_body
        exact hbody body' (by simpa using hpre) hbody'
  · rintro ⟨before, cs, hsplit, hnone⟩
    refine ⟨⟨'/' :: '*' :: cs, .fault .unterminatedComment⟩, ?_, rfl⟩
    rw [hsplit, hnone.segments_eq]
    exact List.mem_append_right _ List.mem_cons_self

/-- Wherever a block comment is opened in a source, the shortest text that is written as one is
skipped, and what comes behind it is taken apart by itself. If there is no such text, then, and only
then, the rest of the source is at fault. This fault is reported of a source if there is such a
place. -/
theorem blockComments_nest (source : String) :
    (∀ before cs, segments source.toList = before ++ segments ('/' :: '*' :: cs) →
      source.toList = before.flatMap (·.text) ++ '/' :: '*' :: cs ∧
      (∀ text rest, text ++ rest = '/' :: '*' :: cs →
        (ShortestComment text ('/' :: '*' :: cs) ↔
          segments source.toList = before ++ ⟨text, .comment⟩ :: segments rest)) ∧
      (NoComment ('/' :: '*' :: cs) ↔
        segments source.toList =
          before ++ [⟨'/' :: '*' :: cs, .fault .unterminatedComment⟩])) ∧
    ((∃ line, (line, .unterminatedComment) ∈ faults source) ↔
      ∃ before cs, segments source.toList = before ++ segments ('/' :: '*' :: cs) ∧
        NoComment ('/' :: '*' :: cs)) := by
  refine ⟨fun before cs h => ⟨?_, fun text rest htext => ?_, ?_⟩, ?_⟩
  · have hall : Decomposes source.toList (before ++ segments ('/' :: '*' :: cs)) :=
      decomposes_iff.mpr h.symm
    have hcs : Decomposes ('/' :: '*' :: cs) (segments ('/' :: '*' :: cs)) := decomposes_iff.mpr rfl
    obtain ⟨rest, hsource, hrest⟩ := hall.exists_suffix
    rw [hsource, ← hrest.flatMap_text, hcs.flatMap_text]
  · rw [h, List.append_cancel_left_eq]
    exact shortestComment_iff htext
  · rw [h, List.append_cancel_left_eq]
    exact noComment_iff
  · rw [exists_mem_faults_iff]
    exact exists_unterminatedComment_iff

/-- One comment inside another, the inner one with a star between its ends. -/
theorem blockComments_nest_once :
    let source := "x/* /***/ */y"
    let before : List Segment := [⟨['x'], .token .identifier⟩]
    let text := "/* /***/ */".toList
    segments source.toList = before ++ segments (text ++ ['y']) ∧
      ShortestComment text (text ++ ['y']) := by
  intro source before text
  have hbefore : segments source.toList = before ++ segments (text ++ ['y']) := by decide +kernel
  have hskip : segments source.toList = before ++ ⟨text, .comment⟩ :: segments ['y'] := by
    decide +kernel
  exact ⟨hbefore, (((blockComments_nest source).1 before _ hbefore).2.1 text ['y'] rfl).mpr hskip⟩

/-- The two ends of a comment have no character in common, whichever comes first. -/
example : ["/*/", "/*/*/", "/**/", "/***/"].map (fun s => (segments s.toList).map (·.role)) =
    [[.fault .unterminatedComment], [.fault .unterminatedComment], [.comment], [.comment]] := by
  decide +kernel

end Lox.Source
