import Lox.Proofs.Source.Counting
import Lox.Proofs.Source.Seam

/-!
The lexemes of a source, written once more with blanks between them.

A blank ends any token, and takes part in none. So whatever stood between the tokens of a source,
faults included, one blank does as well: the same tokens are read again, and no faults.
-/

namespace Lox.Source

variable {source : String}

lemma isBlank_space : isBlank ' ' := by decide

/-- The lexeme of a token is a text of its kind. -/
lemma lexeme_of_mem_tokens {t : Token} (h : t ∈ tokens source) (hend : t.kind ≠ .eof) :
    Lexeme t.lexeme.toList t.kind := by
  have hyields : Yields [] source.toList (scan source) := yields_iff.mpr rfl
  obtain ⟨i, hi, ht⟩ := List.mem_filterMap.mp h
  cases i with
  | fault => cases ht
  | token u =>
    cases ht
    have hitems : items source = scan source := (scanAfter_eq ..).symm
    obtain ⟨before, text, rest, -, hread, -⟩ := hyields.exists_readFrom _ (hitems ▸ hi)
    cases hread with
    | eof => exact absurd rfl hend
    | token hstands =>
      rw [String.toList_ofList]
      cases hstands with
      | token hk => exact hk

/-- A text of tokens and blanks, with a blank or nothing behind each token. -/
inductive Spaced : List Token → List Char → Prop
  | nil : Spaced [] []
  | blank {ts c rest} : isBlank c → Spaced ts rest → Spaced ts (c :: rest)
  | token {t ts rest} : Lexeme t.lexeme.toList t.kind → (∀ c ∈ rest.head?, isBlank c) →
      Spaced ts rest → Spaced (t :: ts) (t.lexeme.toList ++ rest)

lemma spaced_blanks {blanks : List Char} (h : ∀ c ∈ blanks, isBlank c) : Spaced [] blanks := by
  induction blanks with
  | nil => exact .nil
  | cons c cs ih =>
    obtain ⟨hc, hcs⟩ := List.forall_mem_cons.mp h
    exact .blank hc (ih hcs)

/-- Lexemes with single blanks between them, and any blanks behind the last. -/
lemma spaced_intercalate {ts : List Token} (hts : ∀ t ∈ ts, Lexeme t.lexeme.toList t.kind)
    {blanks : List Char} (hblanks : ∀ c ∈ blanks, isBlank c) :
    Spaced ts ([' '].intercalate (ts.map (·.lexeme.toList)) ++ blanks) := by
  induction ts with
  | nil => exact spaced_blanks hblanks
  | cons t ts ih =>
    obtain ⟨ht, hts⟩ := List.forall_mem_cons.mp hts
    cases ts with
    | nil =>
      rw [List.map_singleton, List.intercalate_singleton]
      exact .token ht (fun c hc => hblanks c (List.mem_of_mem_head? hc)) (spaced_blanks hblanks)
    | cons u ts =>
      rw [List.map_cons, List.map_cons, List.intercalate_cons_cons, List.append_assoc,
        List.append_assoc]
      refine .token ht ?_ (.blank isBlank_space (ih hts))
      rintro c ⟨⟩
      exact isBlank_space

/-- The tokens of such a text are read from it, and nothing else. -/
lemma Spaced.yields {ts : List Token} {cs : List Char} (h : Spaced ts cs) (front : List Char) :
    ∃ (us : List Token) (line : ℕ),
      us.map (Token.relabel .unlined) = ts.map (Token.relabel .unlined) ∧
      Yields front cs (us.map .token ++ [.token ⟨.eof, "", line⟩]) := by
  induction h generalizing front with
  | nil => exact ⟨[], _, rfl, .done⟩
  | @blank ts c rest hc _ ih =>
    obtain ⟨us, line, hus, hyields⟩ := ih (front ++ [c])
    exact ⟨us, line, hus, .skips (.blank (isBlank_iff.mp hc)) (.inl rfl) hyields⟩
  | @token t ts rest ht hrest _ ih =>
    obtain ⟨us, line, hus, hyields⟩ := ih (front ++ t.lexeme.toList)
    have htoken := Yields.token (ht.stands hrest) hyields
    rw [String.ofList_toList] at htoken
    refine ⟨_ :: us, line, ?_, htoken⟩
    rw [List.map_cons, List.map_cons, hus]
    rfl

/-- Read again, `again` has no faults, and the tokens of the source, but for their lines, with one
end of input behind them. -/
structure RereadsTo (source again : String) : Prop where
  clean : faults again = []
  same : (tokens again).map (Token.relabel .unlined) =
    (tokens source).map (Token.relabel .unlined)
  ended : ∃ line, tokens again = Grammar.beforeEnd (tokens again) ++ [⟨.eof, "", line⟩]

lemma tokens_of_items {ts : List Token} (h : items source = ts.map .token) :
    tokens source = ts ∧ faults source = [] := by
  rw [tokens, faults, h, List.filterMap_map, List.filterMap_map]
  exact ⟨List.filterMap_some, List.filterMap_eq_nil_iff.mpr fun _ _ => rfl⟩

lemma rereadsTo_spaced (blanks : List Char) (hblanks : ∀ c ∈ blanks, isBlank c) {again : String}
    (hagain : again.toList = [' '].intercalate
      ((Grammar.beforeEnd (tokens source)).map (·.lexeme.toList)) ++ blanks) :
    RereadsTo source again := by
  have hts : ∀ t ∈ Grammar.beforeEnd (tokens source), Lexeme t.lexeme.toList t.kind := by
    intro t ht
    refine lexeme_of_mem_tokens ((List.takeWhile_prefix _).subset ht) fun hend => ?_
    have hnot := forall_takeWhile (fun u : Token => !u.kind.isEof) _ t ht
    rw [hend] at hnot
    cases hnot
  obtain ⟨us, line, hus, hyields⟩ := (spaced_intercalate hts hblanks).yields []
  have hitems : items again = (us ++ [(⟨.eof, "", line⟩ : Token)]).map .token := by
    rw [← hagain] at hyields
    rw [List.map_append]
    exact (scanAfter_eq ..).symm.trans (yields_iff.mp hyields).symm
  obtain ⟨htokens, hfaults⟩ := tokens_of_items hitems
  refine ⟨hfaults, ?_, _, tokens_eq again⟩
  rw [htokens, tokens_eq source, List.map_append, List.map_append, hus]
  rfl

/-- The lexemes of a source, with single blanks between them, are read again as the same tokens but
for their lines, and without faults, whether or not the empty one of the end is among them. -/
theorem lexemes_reread (source : String) :
    RereadsTo source (" ".intercalate ((tokens source).map (·.lexeme))) ∧
      RereadsTo source
        (" ".intercalate ((Grammar.beforeEnd (tokens source)).map (·.lexeme))) := by
  have htext (ts : List Token) : (" ".intercalate (ts.map (·.lexeme))).toList =
      [' '].intercalate (ts.map (·.lexeme.toList)) := by
    rw [String.toList_intercalate, List.map_map]
    rfl
  constructor
  · rw [tokens_eq source]
    generalize hts : Grammar.beforeEnd (tokens source) = ts
    -- the empty lexeme of the end leaves a blank behind the last, if there is one
    cases ts with
    | nil => exact rereadsTo_spaced [] nofun (by rw [hts]; rfl)
    | cons t ts =>
      refine rereadsTo_spaced [' '] (List.forall_mem_singleton.mpr isBlank_space) ?_
      rw [hts, List.map_append, String.intercalate_append_of_ne_nil (by simp) (by simp), ← htext]
      simp
  · refine rereadsTo_spaced [] nofun ?_
    rw [htext, List.append_nil]

example : " ".intercalate ((tokens "a@==!=\"b\n\"/**/.c").map (·.lexeme)) =
    "a == != \"b\n\" . c " := by
  decide +kernel

end Lox.Source
