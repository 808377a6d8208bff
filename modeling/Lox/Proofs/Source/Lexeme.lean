import Mathlib.Data.List.TakeWhile
import Mathlib.Data.Nat.Notation
import Mathlib.Tactic.Common
import Lox.Source.Segment

/-!
How a text is written, and what stands at its front.

The rules for tokens and comments are given here without regard to how a text is read. At the front
of a text stands the longest token that is written there, unless a blank or a comment does, or
nothing that is written by the rules. So at most one segment stands there, and this is the one that
is read.
-/

namespace Lox.Source

/-! ### The rules of writing -/

/-- The text of a token of each kind. -/
inductive Lexeme : List Char → Kind → Prop
  | symbol (s : Symbol) : Lexeme s.text.toList (.symbol s)
  | keyword (k : Keyword) : Lexeme k.text.toList (.keyword k)
  | name {c cs} : isWordStart c → (∀ d ∈ cs, isWordPart d) →
      (∀ k : Keyword, k.text.toList ≠ c :: cs) → Lexeme (c :: cs) .identifier
  | whole {ds} : ds ≠ [] → (∀ d ∈ ds, isDigit d) → Lexeme ds (.number (numberOfDigits ds 0))
  | fraction {ds es} : ds ≠ [] → (∀ d ∈ ds, isDigit d) → es ≠ [] → (∀ d ∈ es, isDigit d) →
      Lexeme (ds ++ '.' :: es) (.number (numberOfDigits (ds ++ es) es.length))
  | string {body} : '\"' ∉ body →
      Lexeme ('\"' :: (body ++ ['\"'])) (.string (String.ofList body))

/-- The text of a block comment after its opener, with `depth` more comments open inside. -/
inductive CommentRest : ℕ → List Char → Prop
  | close : CommentRest 0 ['*', '/']
  | closeInner {depth r} : CommentRest depth r → CommentRest (depth + 1) ('*' :: '/' :: r)
  | openInner {depth r} : CommentRest (depth + 1) r → CommentRest depth ('/' :: '*' :: r)
  | other {depth c r} : ¬['/', '*'] <+: c :: r → ¬['*', '/'] <+: c :: r → CommentRest depth r →
      CommentRest depth (c :: r)

/-- A comment begins at the front. -/
def OpensComment (cs : List Char) : Prop := ['/', '/'] <+: cs ∨ ['/', '*'] <+: cs

/-- What stands at the front of a text: its role, the stretch itself, and what follows. -/
inductive Stands : Role → List Char → List Char → Prop
  | blank {c rest} : c ∈ [' ', '\r', '\t', '\n'] → Stands .blank [c] rest
  | lineComment {body rest} : '\n' ∉ body → (∀ c ∈ rest.head?, c = '\n') →
      Stands .comment ('/' :: '/' :: body) rest
  | blockComment {body rest} : CommentRest 0 body → Stands .comment ('/' :: '*' :: body) rest
  | token {text k rest} : Lexeme text k → ¬OpensComment (text ++ rest) →
      (∀ text' k', Lexeme text' k' → text' <+: text ++ rest → text'.length ≤ text.length) →
      Stands (.token k) text rest
  /-- No token, blank, comment or string begins with the character. -/
  | unexpected {c rest} : c ∉ ['\"', ' ', '\r', '\t', '\n'] → ¬OpensComment (c :: rest) →
      (∀ text k, Lexeme text k → ¬text <+: c :: rest) →
      Stands (.fault .unexpectedCharacter) [c] rest
  | unterminatedString {body} : '\"' ∉ body →
      Stands (.fault .unterminatedString) ('\"' :: body) []
  | unterminatedComment {body} : (∀ front, front <+: body → ¬CommentRest 0 front) →
      Stands (.fault .unterminatedComment) ('/' :: '*' :: body) []

/-! ### Classes of characters -/

lemma isBlank_iff {c : Char} : isBlank c ↔ c ∈ [' ', '\r', '\t', '\n'] := by
  simp [isBlank, or_assoc]

lemma isBlank_of_isDigit {c : Char} (h : isDigit c) : isBlank c = false := by
  by_contra hc
  rw [Bool.not_eq_false, isBlank_iff] at hc
  simp only [List.mem_cons, List.not_mem_nil, or_false] at hc
  rcases hc with rfl | rfl | rfl | rfl <;> exact absurd h (by decide)

lemma isBlank_of_isWordStart {c : Char} (h : isWordStart c) : isBlank c = false := by
  by_contra hc
  rw [Bool.not_eq_false, isBlank_iff] at hc
  simp only [List.mem_cons, List.not_mem_nil, or_false] at hc
  rcases hc with rfl | rfl | rfl | rfl <;> exact absurd h (by decide)

lemma isDigit_of_isWordStart {c : Char} (h : isWordStart c) : isDigit c = false := by
  by_contra hc
  rw [Bool.not_eq_false] at hc
  simp only [isDigit, isWordStart, Bool.and_eq_true, Bool.or_eq_true, decide_eq_true_eq,
    Char.le_def, UInt32.le_iff_toNat_le] at h hc
  rcases h with (h | h) | rfl
  · have : 'a'.val.toNat = 97 := rfl
    have : '9'.val.toNat = 57 := rfl
    omega
  · have : 'A'.val.toNat = 65 := rfl
    have : '9'.val.toNat = 57 := rfl
    omega
  · exact absurd hc (by decide)

/-! ### Which tokens begin with a character -/

/-- Every symbol is read back from its text. -/
lemma ofText_symbol (s : Symbol) : ∃ c cs, s.text.toList = c :: cs ∧
    (cs = [] ∧ Symbol.ofChar? c = some s ∨ ∃ d, cs = [d] ∧ Symbol.ofPair? c d = some s) := by
  cases s <;> first
    | exact ⟨_, _, rfl, .inl ⟨rfl, by decide⟩⟩
    | exact ⟨_, _, rfl, .inr ⟨_, rfl, by decide⟩⟩

/-- A symbol begins with none of the characters that begin other tokens. -/
lemma begin_symbol (s : Symbol) {c cs} (h : s.text.toList = c :: cs) :
    isBlank c = false ∧ isDigit c = false ∧ isWordStart c = false ∧ c ≠ '\"' := by
  cases s <;> cases h <;> decide

lemma begin_keyword (k : Keyword) : ∃ c cs, k.text.toList = c :: cs ∧ isWordStart c ∧
    ∀ d ∈ cs, isWordPart d := by
  cases k <;> exact ⟨_, _, rfl, by decide, List.all_eq_true.mp (by decide)⟩

lemma symbol_ext {s s' : Symbol} (h : s.text.toList = s'.text.toList) : s = s' := by
  obtain ⟨c, cs, hs, hread⟩ := ofText_symbol s
  obtain ⟨c', cs', hs', hread'⟩ := ofText_symbol s'
  rw [hs, hs', List.cons.injEq] at h
  obtain ⟨rfl, rfl⟩ := h
  obtain ⟨rfl, hread⟩ | ⟨d, rfl, hread⟩ := hread <;>
    obtain ⟨hcs, hread'⟩ | ⟨d', hcs, hread'⟩ := hread' <;> cases hcs <;>
    exact Option.some_inj.mp (hread.symm.trans hread')

lemma wordKind_keyword (k : Keyword) : wordKind k.text.toList = .keyword k := by
  rw [wordKind, String.ofList_toList, Keyword.ofWord?_text]

lemma wordKind_name {w : List Char} (h : ∀ k : Keyword, k.text.toList ≠ w) :
    wordKind w = .identifier := by
  unfold wordKind
  cases hw : Keyword.ofWord? (String.ofList w) with
  | none => rfl
  | some k =>
    refine absurd ?_ (h k)
    rw [Keyword.text_of_ofWord? hw, String.toList_ofList]

namespace Lexeme

variable {c : Char} {cs : List Char} {k : Kind}

/-- The forms of the tokens that begin with a character. -/
lemma cons_cases (h : Lexeme (c :: cs) k) :
    (isDigit c = false ∧ isWordStart c = false ∧ isBlank c = false ∧ c ≠ '\"' ∧
        ∃ s, k = .symbol s ∧ s.text.toList = c :: cs) ∨
      (isWordStart c ∧ (∀ d ∈ c :: cs, isWordPart d) ∧ k = wordKind (c :: cs)) ∨
      (isDigit c ∧ ((∀ d ∈ c :: cs, isDigit d) ∧ k = .number (numberOfDigits (c :: cs) 0) ∨
        ∃ ds es, ds ≠ [] ∧ (∀ d ∈ ds, isDigit d) ∧ es ≠ [] ∧ (∀ d ∈ es, isDigit d) ∧
          c :: cs = ds ++ '.' :: es ∧
          k = .number (numberOfDigits (ds ++ es) es.length))) ∨
      (c = '\"' ∧ ∃ body, '\"' ∉ body ∧ cs = body ++ ['\"'] ∧ k = .string (String.ofList body)) := by
  generalize htext : c :: cs = text at h
  cases h with
  | symbol s =>
    obtain ⟨hblank, hdigit, hword, hquote⟩ := begin_symbol s htext.symm
    exact .inl ⟨hdigit, hword, hblank, hquote, s, rfl, rfl⟩
  | keyword w =>
    obtain ⟨c', cs', hw, hstart, hpart⟩ := begin_keyword w
    obtain ⟨rfl, rfl⟩ := List.cons.inj (htext.trans hw)
    refine .inr <| .inl ⟨hstart, ?_, ?_⟩
    · rw [hw]
      exact List.forall_mem_cons.mpr ⟨by simp [isWordPart, hstart], hpart⟩
    · rw [wordKind_keyword]
  | name hstart hpart hne =>
    obtain ⟨rfl, rfl⟩ := List.cons.inj htext
    refine .inr <| .inl ⟨hstart, List.forall_mem_cons.mpr ⟨by simp [isWordPart, hstart], hpart⟩, ?_⟩
    rw [wordKind_name hne]
  | whole _ hds =>
    subst htext
    exact .inr <| .inr <| .inl ⟨(List.forall_mem_cons.mp hds).1, .inl ⟨hds, rfl⟩⟩
  | @fraction ds es hne hds hne' hes =>
    refine .inr <| .inr <| .inl ⟨?_, .inr ⟨ds, es, hne, hds, hne', hes, rfl, rfl⟩⟩
    obtain ⟨d, ds, rfl⟩ := List.exists_cons_of_ne_nil hne
    obtain ⟨rfl, -⟩ := List.cons.inj htext
    exact (List.forall_mem_cons.mp hds).1
  | @string body hbody =>
    obtain ⟨rfl, rfl⟩ := List.cons.inj htext
    exact .inr <| .inr <| .inr ⟨rfl, body, hbody, rfl, rfl⟩

lemma ne_nil {text : List Char} (h : Lexeme text k) : text ≠ [] := by
  cases h with
  | symbol s =>
    obtain ⟨c, cs, hs, -⟩ := ofText_symbol s
    rw [hs]
    exact List.cons_ne_nil c cs
  | keyword w =>
    obtain ⟨c, cs, hw, -⟩ := begin_keyword w
    rw [hw]
    exact List.cons_ne_nil c cs
  | name => exact List.cons_ne_nil _ _
  | whole hne => exact hne
  | fraction hne => exact List.append_ne_nil_of_left_ne_nil hne _
  | string => exact List.cons_ne_nil _ _

lemma not_isBlank (h : Lexeme (c :: cs) k) : isBlank c = false := by
  obtain ⟨-, -, hc, -⟩ | ⟨hc, -⟩ | ⟨hc, -⟩ | ⟨rfl, -⟩ := h.cons_cases
  · exact hc
  · exact isBlank_of_isWordStart hc
  · exact isBlank_of_isDigit hc
  · decide

lemma kind_ne_eof {text : List Char} (h : Lexeme text k) : k ≠ .eof := by
  cases h <;> exact nofun

lemma digits (h : Lexeme (c :: cs) k) (hc : isDigit c) :
    (∀ d ∈ c :: cs, isDigit d) ∧ k = .number (numberOfDigits (c :: cs) 0) ∨
      ∃ ds es, ds ≠ [] ∧ (∀ d ∈ ds, isDigit d) ∧ es ≠ [] ∧ (∀ d ∈ es, isDigit d) ∧
        c :: cs = ds ++ '.' :: es ∧ k = .number (numberOfDigits (ds ++ es) es.length) := by
  obtain ⟨hc', -⟩ | ⟨hc', -⟩ | ⟨-, h⟩ | ⟨rfl, -⟩ := h.cons_cases
  · rw [hc'] at hc
    cases hc
  · rw [isDigit_of_isWordStart hc'] at hc
    cases hc
  · exact h
  · exact absurd hc (by decide)

lemma word (h : Lexeme (c :: cs) k) (hc : isWordStart c) :
    (∀ d ∈ c :: cs, isWordPart d) ∧ k = wordKind (c :: cs) := by
  obtain ⟨-, hc', -⟩ | ⟨-, h⟩ | ⟨hc', -⟩ | ⟨rfl, -⟩ := h.cons_cases
  · rw [hc'] at hc
    cases hc
  · exact h
  · rw [isDigit_of_isWordStart hc] at hc'
    cases hc'
  · exact absurd hc (by decide)

lemma quoted (h : Lexeme ('\"' :: cs) k) :
    ∃ body, '\"' ∉ body ∧ cs = body ++ ['\"'] ∧ k = .string (String.ofList body) := by
  obtain ⟨-, -, -, hc, -⟩ | ⟨hc, -⟩ | ⟨hc, -⟩ | ⟨-, h⟩ := h.cons_cases
  · exact absurd rfl hc
  · exact absurd hc (by decide)
  · exact absurd hc (by decide)
  · exact h

lemma symbolic (h : Lexeme (c :: cs) k) (hdigit : isDigit c = false) (hword : isWordStart c = false)
    (hquote : c ≠ '\"') : ∃ s, k = .symbol s ∧ s.text.toList = c :: cs := by
  obtain ⟨-, -, -, -, h⟩ | ⟨hc, -⟩ | ⟨hc, -⟩ | ⟨hc, -⟩ := h.cons_cases
  · exact h
  · rw [hword] at hc
    cases hc
  · rw [hdigit] at hc
    cases hc
  · exact absurd hc hquote

end Lexeme

lemma not_digit_point : isDigit '.' = false := by decide

/-- Digits end where they end. -/
lemma digits_append_point {ds ds' es es' : List Char} (hds : ∀ d ∈ ds, isDigit d)
    (hds' : ∀ d ∈ ds', isDigit d) (h : ds ++ '.' :: es = ds' ++ '.' :: es') :
    ds = ds' ∧ es = es' := by
  have htake := congrArg (List.takeWhile isDigit) h
  rw [List.takeWhile_append_of_pos hds, List.takeWhile_append_of_pos hds',
    List.takeWhile_cons_of_neg (by simp [not_digit_point]), List.append_nil,
    List.takeWhile_cons_of_neg (by simp [not_digit_point]), List.append_nil] at htake
  subst htake
  exact ⟨rfl, by simpa using h⟩

lemma isBlank_of_isWordPart {c : Char} (h : isWordPart c) : isBlank c = false := by
  obtain h | h := Bool.or_eq_true_iff.mp h
  · exact isBlank_of_isWordStart h
  · exact isBlank_of_isDigit h

/-- Only a string may hold blanks. -/
lemma Lexeme.forall_not_isBlank {text : List Char} {k : Kind} (h : Lexeme text k)
    (hk : ∀ s, k ≠ .string s) : ∀ c ∈ text, isBlank c = false := by
  obtain ⟨c, cs, rfl⟩ := List.exists_cons_of_ne_nil h.ne_nil
  obtain ⟨-, -, -, -, s, -, hs⟩ | ⟨-, hpart, -⟩ | ⟨-, ⟨hds, -⟩ | ⟨ds, es, -, hds, -, hes, htext, -⟩⟩ |
    ⟨-, body, -, -, rfl⟩ := h.cons_cases
  · have hall : (s.text.toList.all fun d => !isBlank d) = true := by cases s <;> decide
    rw [← hs]
    exact fun d hd => (Bool.not_eq_true' _).mp (List.all_eq_true.mp hall d hd)
  · exact fun d hd => isBlank_of_isWordPart (hpart d hd)
  · exact fun d hd => isBlank_of_isDigit (hds d hd)
  · rw [htext]
    refine List.forall_mem_append.mpr ⟨fun d hd => isBlank_of_isDigit (hds d hd), ?_⟩
    exact List.forall_mem_cons.mpr ⟨by decide, fun d hd => isBlank_of_isDigit (hes d hd)⟩
  · exact absurd rfl (hk _)

/-- The text of a token determines its kind. -/
theorem Lexeme.kind_eq {text : List Char} {k k' : Kind} (h : Lexeme text k) (h' : Lexeme text k') :
    k = k' := by
  obtain ⟨c, cs, rfl⟩ := List.exists_cons_of_ne_nil h.ne_nil
  obtain ⟨hdigit, hword, -, hquote, s, rfl, hs⟩ | ⟨hc, -, rfl⟩ | ⟨hc, hform⟩ |
    ⟨rfl, body, -, rfl, rfl⟩ := h.cons_cases
  · obtain ⟨s', rfl, hs'⟩ := h'.symbolic hdigit hword hquote
    rw [symbol_ext (hs.trans hs'.symm)]
  · exact (h'.word hc).2.symm
  · obtain ⟨hds, rfl⟩ | ⟨ds, es, hne, hds, hne', hes, htext, rfl⟩ := hform <;>
      obtain ⟨hall, rfl⟩ | ⟨ds', es', -, hall, -, -, htext', rfl⟩ := h'.digits hc
    · rfl
    · refine absurd (hds '.' ?_) (by decide)
      simp [htext']
    · refine absurd (hall '.' ?_) (by decide)
      simp [htext]
    · obtain ⟨rfl, rfl⟩ := digits_append_point hds hall (htext.symm.trans htext')
      rfl
  · obtain ⟨body', -, hbody', rfl⟩ := h'.quoted
    rw [List.append_cancel_right hbody']

/-! ### Comments -/

lemma CommentRest.ne_nil {depth : ℕ} {body : List Char} (h : CommentRest depth body) :
    body ≠ [] := by
  cases h <;> exact List.cons_ne_nil _ _

/-- A comment is read up to its end, whatever follows. -/
lemma CommentRest.commentLength? {depth : ℕ} {body : List Char} (h : CommentRest depth body)
    (seen : ℕ) (rest : List Char) :
    commentLength? depth seen (body ++ rest) = some (seen + body.length) := by
  induction h generalizing seen with
  | close => simp [Source.commentLength?]
  | closeInner _ ih =>
    rw [List.cons_append, List.cons_append, Source.commentLength?, ih]
    simp only [List.length_cons]
    congr 1
    omega
  | openInner _ ih =>
    rw [List.cons_append, List.cons_append, Source.commentLength?, ih]
    simp only [List.length_cons]
    congr 1
    omega
  | @other depth c r hopen hclose hr ih =>
    -- there is a second character in the comment, so neither end begins at the first
    obtain ⟨d, r, rfl⟩ := List.exists_cons_of_ne_nil hr.ne_nil
    rw [List.cons_append, commentLength?.eq_5, ih]
    · simp only [List.length_cons]
      congr 1
      omega
    · rintro r' rfl h
      obtain ⟨rfl, -⟩ := List.cons.inj h
      exact hopen ⟨r, rfl⟩
    · rintro r' rfl h
      obtain ⟨rfl, -⟩ := List.cons.inj h
      exact hclose ⟨r, rfl⟩

lemma commentRest_of_commentLength? {depth seen : ℕ} {cs : List Char} {n : ℕ}
    (h : commentLength? depth seen cs = some n) :
    ∃ body rest, cs = body ++ rest ∧ n = seen + body.length ∧ CommentRest depth body := by
  fun_induction commentLength? depth seen cs with
  | case1 => cases h
  | case2 depth seen r ih =>
    obtain ⟨body, rest, rfl, rfl, hbody⟩ := ih h
    exact ⟨_, rest, rfl, by simp only [List.length_cons]; omega, .openInner hbody⟩
  | case3 seen r =>
    cases h
    exact ⟨['*', '/'], r, rfl, rfl, .close⟩
  | case4 seen r d ih =>
    obtain ⟨body, rest, rfl, rfl, hbody⟩ := ih h
    exact ⟨_, rest, rfl, by simp only [List.length_cons]; omega, .closeInner hbody⟩
  | case5 depth seen c r hopen hclose ih =>
    obtain ⟨body, rest, rfl, rfl, hbody⟩ := ih h
    refine ⟨c :: body, rest, rfl, by simp only [List.length_cons]; omega, .other ?_ ?_ hbody⟩
    · rintro ⟨r', hr'⟩
      obtain ⟨rfl, rfl⟩ := List.cons.inj hr'
      exact hopen _ rfl rfl
    · rintro ⟨r', hr'⟩
      obtain ⟨rfl, rfl⟩ := List.cons.inj hr'
      exact hclose _ rfl rfl

lemma commentLength?_eq_none_iff {cs : List Char} :
    commentLength? 0 0 cs = none ↔ ∀ front, front <+: cs → ¬CommentRest 0 front := by
  constructor
  · rintro h front ⟨rest, rfl⟩ hfront
    rw [hfront.commentLength?] at h
    cases h
  · intro h
    rw [Option.eq_none_iff_forall_ne_some]
    intro n hn
    obtain ⟨body, rest, rfl, -, hbody⟩ := commentRest_of_commentLength? hn
    exact h body ⟨rest, rfl⟩ hbody

/-! ### What is read stands at the front -/

/-- What is read from `cs` stands there. -/
def Finds (p : Segment × List Char) : Prop := Stands p.1.role p.1.text p.2

lemma length_le_takeWhile {p : Char → Bool} {text cs : List Char} (h : text <+: cs)
    (hp : ∀ c ∈ text, p c) : text.length ≤ (cs.takeWhile p).length := by
  obtain ⟨rest, rfl⟩ := h
  rw [List.takeWhile_append_of_pos hp, List.length_append]
  omega

lemma not_opensComment {c : Char} {cs : List Char} (h : c ≠ '/') : ¬OpensComment (c :: cs) := by
  rintro (⟨r, hr⟩ | ⟨r, hr⟩) <;> exact h (List.cons.inj hr).1.symm

/-- A token is found if it is as long as any other. -/
lemma finds_token {c : Char} {cs : List Char} {p : Segment × List Char} {k : Kind}
    (hjoined : joined p = c :: cs) (hrole : p.1.role = .token k) (hk : Lexeme p.1.text k)
    (hcomment : ¬OpensComment (c :: cs))
    (hlongest : ∀ c' cs' k', Lexeme (c' :: cs') k' → c' = c → c' :: cs' <+: c :: cs →
      (c' :: cs').length ≤ p.1.text.length) : Finds p := by
  unfold joined at hjoined
  rw [Finds, hrole]
  refine .token hk (by rwa [hjoined]) fun text' k' h' hpre => ?_
  obtain ⟨c', cs', rfl⟩ := List.exists_cons_of_ne_nil h'.ne_nil
  rw [hjoined] at hpre
  exact hlongest c' cs' k' h' (List.cons_prefix_cons.mp hpre).1 hpre

lemma number_of_point {cs r : List Char} {d : Char} (h : cs.dropWhile isDigit = '.' :: d :: r)
    (hd : isDigit d) :
    (number cs).1 = ⟨cs.takeWhile isDigit ++ '.' :: (d :: r).takeWhile isDigit, .token (.number
      (numberOfDigits (cs.takeWhile isDigit ++ (d :: r).takeWhile isDigit)
        ((d :: r).takeWhile isDigit).length))⟩ := by
  unfold number
  simp only [h, hd, if_true]

lemma number_of_not_point {cs : List Char}
    (h : ¬∃ d r, cs.dropWhile isDigit = '.' :: d :: r ∧ isDigit d) :
    (number cs).1 = ⟨cs.takeWhile isDigit,
      .token (.number (numberOfDigits (cs.takeWhile isDigit) 0))⟩ := by
  unfold number
  dsimp only
  split
  · rename_i d r hdrop
    rw [if_neg fun hd => h ⟨d, r, hdrop, hd⟩]
  · rfl

lemma forall_takeWhile {α : Type*} (p : α → Bool) (cs : List α) : ∀ c ∈ cs.takeWhile p, p c :=
  fun _ hc => List.all_eq_true.mp List.all_takeWhile _ hc

lemma finds_number {c : Char} (cs : List Char) (hc : isDigit c) : Finds (number (c :: cs)) := by
  have hcomment : ¬OpensComment (c :: cs) := not_opensComment <| by
    rintro rfl
    exact absurd hc (by decide)
  have hwhole : (c :: cs).takeWhile isDigit ≠ [] := by simp [hc]
  have hdigits := forall_takeWhile isDigit (c :: cs)
  -- a token that begins here is either of digits alone, or has a point after all of the digits
  have hforms : ∀ c' cs' k', Lexeme (c' :: cs') k' → c' = c → c' :: cs' <+: c :: cs →
      (c' :: cs').length ≤ ((c :: cs).takeWhile isDigit).length ∨
        ∃ d r, (c :: cs).dropWhile isDigit = '.' :: d :: r ∧ isDigit d ∧ (c' :: cs').length ≤
          ((c :: cs).takeWhile isDigit).length + 1 + ((d :: r).takeWhile isDigit).length := by
    rintro c' cs' k' h' rfl hpre
    obtain ⟨hds, -⟩ | ⟨ds, es, -, hds, hne, hes, htext, -⟩ := h'.digits hc
    · exact .inl (length_le_takeWhile hpre hds)
    · obtain ⟨rest, hrest⟩ := hpre
      obtain ⟨d, es, rfl⟩ := List.exists_cons_of_ne_nil hne
      rw [htext, List.append_assoc, List.cons_append] at hrest
      have htake : (c' :: cs).takeWhile isDigit = ds := by
        rw [← hrest, List.takeWhile_append_of_pos hds]
        simp [not_digit_point]
      have hdrop : (c' :: cs).dropWhile isDigit = '.' :: d :: (es ++ rest) := by
        rw [← hrest, List.dropWhile_append_of_pos hds]
        simp [not_digit_point]
      refine .inr ⟨d, _, hdrop, (List.forall_mem_cons.mp hes).1, ?_⟩
      have hlen := length_le_takeWhile (List.prefix_append (d :: es) rest) hes
      rw [htext, htake, List.length_append, List.length_cons]
      rw [List.cons_append] at hlen
      omega
  by_cases hpoint : ∃ d r, (c :: cs).dropWhile isDigit = '.' :: d :: r ∧ isDigit d
  · obtain ⟨d, r, hdrop, hd⟩ := hpoint
    have hplaces : (d :: r).takeWhile isDigit ≠ [] := by simp [hd]
    refine finds_token (joined_number _) (by rw [number_of_point hdrop hd]) ?_ hcomment ?_
    · rw [number_of_point hdrop hd]
      exact .fraction hwhole hdigits hplaces (forall_takeWhile isDigit _)
    · intro c' cs' k' h' hc' hpre
      rw [number_of_point hdrop hd, List.length_append, List.length_cons (a := '.')]
      obtain h | ⟨d', r', hdrop', -, h⟩ := hforms c' cs' k' h' hc' hpre
      · omega
      · rw [hdrop] at hdrop'
        cases hdrop'
        omega
  · refine finds_token (joined_number _) (by rw [number_of_not_point hpoint]) ?_ hcomment ?_
    · rw [number_of_not_point hpoint]
      exact .whole hwhole hdigits
    · intro c' cs' k' h' hc' hpre
      rw [number_of_not_point hpoint]
      obtain h | ⟨d, r, hdrop, hd, -⟩ := hforms c' cs' k' h' hc' hpre
      · exact h
      · exact absurd ⟨d, r, hdrop, hd⟩ hpoint

lemma lexeme_word {c : Char} {cs : List Char} (hc : isWordStart c) (hcs : ∀ d ∈ cs, isWordPart d) :
    Lexeme (c :: cs) (wordKind (c :: cs)) := by
  by_cases h : ∃ k : Keyword, k.text.toList = c :: cs
  · obtain ⟨k, hk⟩ := h
    rw [← hk, wordKind_keyword]
    exact .keyword k
  · have hne := not_exists.mp h
    rw [wordKind_name hne]
    exact .name hc hcs hne

lemma finds_word {c : Char} (cs : List Char) (hc : isWordStart c) : Finds (word (c :: cs)) := by
  have hcomment : ¬OpensComment (c :: cs) := not_opensComment <| by
    rintro rfl
    exact absurd hc (by decide)
  have hpart : isWordPart c := by simp [isWordPart, hc]
  refine finds_token (joined_word _) rfl ?_ hcomment ?_
  · unfold word
    rw [List.takeWhile_cons_of_pos hpart]
    exact lexeme_word hc (forall_takeWhile isWordPart cs)
  · rintro c' cs' k' h' rfl hpre
    exact length_le_takeWhile hpre (h'.word hc).1

lemma quote_not_mem_takeWhile (cs : List Char) : '\"' ∉ cs.takeWhile (· ≠ '\"') := fun h => by
  simpa using forall_takeWhile _ cs _ h

/-- What is put after a part that ends where a character is, begins with the character. -/
lemma takeWhile_append_cons {d : Char} {body : List Char} (h : d ∉ body) (rest : List Char) :
    (body ++ d :: rest).takeWhile (· ≠ d) = body ∧
      (body ++ d :: rest).dropWhile (· ≠ d) = d :: rest := by
  have hbody : ∀ c ∈ body, decide (c ≠ d) = true := fun c hc =>
    decide_eq_true fun hcd => h (hcd ▸ hc)
  rw [List.takeWhile_append_of_pos hbody, List.dropWhile_append_of_pos hbody]
  simp

lemma takeWhile_of_not_mem {d : Char} {body : List Char} (h : d ∉ body) :
    body.takeWhile (· ≠ d) = body ∧ body.dropWhile (· ≠ d) = [] := by
  have hbody : ∀ c ∈ body, decide (c ≠ d) = true := fun c hc =>
    decide_eq_true fun hcd => h (hcd ▸ hc)
  exact ⟨List.takeWhile_eq_self_iff.mpr hbody, List.dropWhile_eq_nil_iff.mpr hbody⟩

lemma finds_string (cs : List Char) : Finds (string cs) := by
  have hjoined := joined_string cs
  have hbody := quote_not_mem_takeWhile cs
  cases hdrop : cs.dropWhile (· ≠ '\"') with
  | nil =>
    have hstring : string cs =
        (⟨'\"' :: cs.takeWhile (· ≠ '\"'), .fault .unterminatedString⟩, []) := by
      unfold string
      rw [hdrop]
    rw [hstring]
    exact .unterminatedString hbody
  | cons q rest =>
    have hhead := List.head?_dropWhile_not (· ≠ '\"') cs
    rw [hdrop] at hhead
    obtain rfl : q = '\"' := by simpa using hhead
    have hstring : string cs = (⟨'\"' :: (cs.takeWhile (· ≠ '\"') ++ ['\"']),
        .token (.string (String.ofList (cs.takeWhile (· ≠ '\"'))))⟩, rest) := by
      unfold string
      rw [hdrop]
    refine finds_token (k := .string (String.ofList (cs.takeWhile (· ≠ '\"')))) hjoined ?_ ?_
      (not_opensComment (by decide)) ?_
    · rw [hstring]
    · rw [hstring]
      exact .string hbody
    · rintro c' cs' k' h' rfl ⟨more, hmore⟩
      obtain ⟨body, hquote, rfl, -⟩ := h'.quoted
      rw [List.cons_append, List.cons.injEq, List.append_assoc] at hmore
      rw [hstring, ← hmore.2, List.singleton_append, (takeWhile_append_cons hquote more).1]

lemma finds_lineComment (cs : List Char) : Finds (lineComment ('/' :: cs)) := by
  have hcons : ('/' :: cs).takeWhile (· ≠ '\n') = '/' :: cs.takeWhile (· ≠ '\n') := by simp
  unfold lineComment
  rw [hcons]
  refine .lineComment (fun h => ?_) (fun c hc => ?_)
  · simpa using forall_takeWhile _ cs _ h
  · have hhead := List.head?_dropWhile_not (· ≠ '\n') ('/' :: cs)
    rw [Option.mem_def.mp hc] at hhead
    simpa using hhead

lemma finds_blockComment (cs : List Char) : Finds (blockComment cs) := by
  unfold blockComment
  cases h : commentLength? 0 0 cs with
  | none => exact .unterminatedComment (commentLength?_eq_none_iff.mp h)
  | some n =>
    obtain ⟨body, rest, rfl, rfl, hbody⟩ := commentRest_of_commentLength? h
    simp only [Nat.zero_add, List.take_left, List.drop_left]
    exact .blockComment hbody

/-- Symbols are found where neither another token nor a comment begins. -/
lemma finds_symbol {c : Char} {cs : List Char} (hblank : isBlank c = false)
    (hdigit : isDigit c = false) (hword : isWordStart c = false) (hquote : c ≠ '\"')
    (hcomment : ¬OpensComment (c :: cs)) : Finds (symbol c cs) := by
  -- a token that begins here is read as one or as two characters
  have hforms : ∀ c' cs' k', Lexeme (c' :: cs') k' → c' = c → c' :: cs' <+: c :: cs →
      cs' = [] ∧ (∃ s, Symbol.ofChar? c = some s) ∨
        ∃ d r s, cs = d :: r ∧ cs' = [d] ∧ Symbol.ofPair? c d = some s := by
    rintro c' cs' k' h' rfl ⟨rest, hrest⟩
    obtain ⟨s, -, hs⟩ := h'.symbolic hdigit hword hquote
    obtain ⟨c, cs, hs', hread⟩ := ofText_symbol s
    obtain ⟨rfl, rfl⟩ := List.cons.inj (hs'.symm.trans hs)
    obtain ⟨rfl, hread⟩ | ⟨d, rfl, hread⟩ := hread
    · exact .inl ⟨rfl, s, hread⟩
    · exact .inr ⟨d, rest, s, (List.cons.inj hrest).2.symm, rfl, hread⟩
  have hsingle : (∀ d r s, cs = d :: r → Symbol.ofPair? c d ≠ some s) → Finds (single c, cs) := by
    intro hpair
    unfold single
    cases hs : Symbol.ofChar? c with
    | none =>
      refine .unexpected ?_ hcomment fun text k h hpre => ?_
      · have hnot : c ∉ [' ', '\r', '\t', '\n'] := fun h => by
          rw [isBlank_iff.mpr h] at hblank
          cases hblank
        exact List.not_mem_cons_of_ne_of_not_mem hquote hnot
      · obtain ⟨c', cs', rfl⟩ := List.exists_cons_of_ne_nil h.ne_nil
        obtain ⟨-, s, hs'⟩ | ⟨d, r, s, hcs, -, hs'⟩ :=
          hforms c' cs' k h (List.cons_prefix_cons.mp hpre).1 hpre
        · rw [hs] at hs'
          cases hs'
        · exact hpair d r s hcs hs'
    | some s =>
      refine finds_token rfl rfl ?_ hcomment fun c' cs' k' h' hc' hpre => ?_
      · have htext := congrArg String.toList (Symbol.text_of_ofChar? hs)
        rw [String.toList_ofList] at htext
        exact htext ▸ .symbol s
      · obtain ⟨rfl, -⟩ | ⟨d, r, s, hcs, -, hs'⟩ := hforms c' cs' k' h' hc' hpre
        · exact Nat.le_refl 1
        · exact absurd hs' (hpair d r s hcs)
  cases cs with
  | nil => exact hsingle fun d r s h => nomatch h
  | cons d r =>
    unfold symbol
    dsimp only
    cases hs : Symbol.ofPair? c d with
    | none =>
      refine hsingle fun d' r' s h => ?_
      cases h
      rw [hs]
      exact Option.some_ne_none s ∘ Eq.symm
    | some s =>
      refine finds_token rfl rfl ?_ hcomment fun c' cs' k' h' hc' hpre => ?_
      · have htext := congrArg String.toList (Symbol.text_of_ofPair? hs)
        rw [String.toList_ofList] at htext
        exact htext ▸ .symbol s
      · obtain ⟨rfl, -⟩ | ⟨d', r', s', -, rfl, -⟩ := hforms c' cs' k' h' hc' hpre
        · exact Nat.le_succ 1
        · exact Nat.le_refl 2

/-- What is read at the front stands there. -/
theorem finds_first (c : Char) (cs : List Char) : Finds (first c cs) := by
  unfold first
  split
  · rename_i hblank
    exact .blank (isBlank_iff.mp hblank)
  · split
    · rename_i hdigit
      exact finds_number cs hdigit
    · split
      · rename_i hword
        exact finds_word cs hword
      · split
        · exact finds_string cs
        · rename_i hblank hdigit hword hquote
          have hsymbol : ¬OpensComment (c :: cs) → Finds (symbol c cs) :=
            finds_symbol (eq_false_of_ne_true hblank) (eq_false_of_ne_true hdigit)
              (eq_false_of_ne_true hword) hquote
          split
          · rename_i hslash
            subst hslash
            split
            · exact finds_lineComment _
            · exact finds_blockComment _
            · rename_i hline hblock
              refine hsymbol ?_
              rintro (⟨r, hr⟩ | ⟨r, hr⟩)
              · exact hline r (List.cons.inj hr).2.symm
              · exact hblock r (List.cons.inj hr).2.symm
          · rename_i hslash
            exact hsymbol (not_opensComment hslash)

end Lox.Source
