import Lox.Proofs.Grammar.Parentheses
import Lox.Proofs.Grammar.Recovery
import Lox.Proofs.Grammar.Replacement
import Lox.Proofs.Grammar.Unterminated

/-!
The statement that has lost its semicolon.

It fails at what comes next, or it goes on with it. Where that is a simple statement, reading
resumes right after it, in the same block, so that there is one complaint and no more.
-/

namespace Lox.Grammar

open Rule

/-! ### The place of the semicolon -/

/-- The tokens that start a simple statement: one of an expression, or a word. -/
def startsSimple : Kind → Bool
  | .keyword .kwVar => true
  | .keyword .kwPrint => true
  | .keyword .kwBreak => true
  | .keyword .kwReturn => true
  | k => begins k

/-- What comes next is a simple statement, or nothing. If it starts with a parenthesis, there are
not so many commas in it that it could be too long a list of arguments. -/
def SimpleNext (rest : List Token) : Prop :=
  ∀ t ∈ rest.head?, startsSimple t.kind ∧ (t.kind = .symbol .leftParen →
    commas (rest.takeWhile (!·.kind.isSymbol .semicolon)) < maxArguments)

/-- The second tokens are the first ones without a semicolon that ends a statement, where more
tokens come after it, from a simple statement on. -/
def Lost (ts ts' : List Token) : Prop :=
  ∃ pre semicolon post, semicolon.kind = .symbol .semicolon ∧ depth pre = 0 ∧ post ≠ [] ∧
    SimpleNext post ∧ ts = pre ++ semicolon :: post ∧ ts' = pre ++ post

section
variable {ts ts' us vs rest : List Token} {t : Token}

lemma takeWhile_prefix_append (p : Token → Bool) (us vs : List Token) :
    us.takeWhile p <+: (us ++ vs).takeWhile p := by
  induction us with
  | nil => exact List.nil_prefix
  | cons t us ih =>
    rw [List.cons_append, List.takeWhile_cons, List.takeWhile_cons]
    split
    · exact (List.prefix_cons_inj t).mpr ih
    · exact List.nil_prefix

lemma SimpleNext.of_append (h : SimpleNext (us ++ vs)) : SimpleNext us := by
  intro t ht
  obtain ⟨us, rfl⟩ := List.head?_eq_some_iff.mp ht
  obtain ⟨hstart, hlist⟩ := h t rfl
  refine ⟨hstart, fun hparen => lt_of_le_of_lt (commas_mono ?_) (hlist hparen)⟩
  exact takeWhile_prefix_append _ (t :: us) vs

lemma Lost.of_append (h : Lost (us ++ vs) ts') (hdepth : depth us = 0) :
    (∃ us', Lost us us' ∧ ts' = us' ++ vs) ∨
      (∃ pre semicolon, us = pre ++ [semicolon] ∧ semicolon.kind = .symbol .semicolon ∧
        SimpleNext vs ∧ vs ≠ [] ∧ ts' = pre ++ vs) ∨
      ∃ vs', Lost vs vs' ∧ ts' = us ++ vs' := by
  obtain ⟨pre, semicolon, post, hsemicolon, hpre, hpost, hnext, hts, rfl⟩ := h
  obtain ⟨more, rfl, rfl⟩ | ⟨pre, rfl, rfl⟩ := split_append hts.symm
  · cases more with
    | nil => exact .inr (.inl ⟨pre, semicolon, rfl, hsemicolon, hnext, hpost, rfl⟩)
    | cons t more =>
      refine .inl ⟨pre ++ t :: more, ?_, by simp⟩
      exact ⟨pre, semicolon, t :: more, hsemicolon, hpre, nofun, hnext.of_append, rfl, rfl⟩
  · rw [depth_append, hdepth, Int.zero_add] at hpre
    exact .inr (.inr ⟨pre ++ post, ⟨pre, semicolon, post, hsemicolon, hpre, hpost, hnext, rfl, rfl⟩,
      by simp⟩)

/-- The semicolon comes after tokens among which none ends a statement. -/
lemma Lost.after (h : Lost (us ++ vs) ts') (hdepth : depth us = 0) (hus : Sheltered 0 us) :
    ∃ vs', Lost vs vs' ∧ ts' = us ++ vs' := by
  have never {pre more : List Token} {semicolon : Token} {p : Prop}
      (hsplit : us = pre ++ semicolon :: more) (hsemicolon : semicolon.kind = .symbol .semicolon)
      (hpre : depth pre = 0) : p := by
    rw [hsplit, sheltered_append] at hus
    exact absurd (by rw [hpre, Int.add_zero]) (hus.2.1 hsemicolon)
  obtain ⟨us', ⟨pre, semicolon, post, hsemicolon, hpre, -, -, hsplit, -⟩, -⟩ |
    ⟨pre, semicolon, hsplit, hsemicolon, -⟩ | hlater := h.of_append hdepth
  · exact never hsplit hsemicolon hpre
  · refine never hsplit hsemicolon ?_
    rw [hsplit, depth_append] at hdepth
    simpa [hsemicolon, parenthesis] using hdepth
  · exact hlater

/-- The first token stays where it is. -/
lemma Lost.exists_front (h : Lost (t :: us) ts') (ht : t.kind.isSymbol .semicolon = false) :
    ∃ us', ts' = t :: us' := by
  obtain ⟨pre, semicolon, post, hsemicolon, -, -, -, hts, rfl⟩ := h
  cases pre with
  | nil =>
    obtain ⟨rfl, -⟩ := List.cons.inj hts
    rw [hsemicolon] at ht
    cases ht
  | cons u pre =>
    obtain ⟨rfl, -⟩ := List.cons.inj hts
    exact ⟨pre ++ post, rfl⟩

/-- In a simple statement the only semicolon is the last token. -/
lemma Lost.not_terminated (h : Lost ts ts') : ¬Terminated ts := by
  rintro ⟨us, -, hdepth, hus⟩
  obtain ⟨vs', ⟨pre, semicolon, post, -, -, hpost, -, hts, -⟩, -⟩ :=
    h.after hdepth (sheltered_of_forall hus)
  have hlen := congrArg List.length hts
  have hpos := List.length_pos_iff.mpr hpost
  simp at hlen
  omega

lemma Lost.after_word {word : Token} (h : Lost (word :: us) ts')
    (hdepth : parenthesis word.kind = 0) (hword : word.kind ≠ .symbol .semicolon) :
    ∃ us', Lost us us' ∧ ts' = word :: us' :=
  have h : Lost ([word] ++ us) ts' := h
  h.after (by simpa using hdepth) (sheltered_of_forall (by simpa using hword))

/-- The semicolon comes before a closing brace, and not right before it. -/
lemma Lost.before {brace : Token} (h : Lost (us ++ [brace]) ts')
    (hbrace : brace.kind = .symbol .rightBrace) : ∃ us', Lost us us' ∧ ts' = us' ++ [brace] := by
  obtain ⟨pre, semicolon, post, hsemicolon, hpre, hpost, hnext, hts, rfl⟩ := h
  obtain ⟨more, rfl, rfl⟩ | ⟨pre, rfl, hlast⟩ := split_append hts.symm
  · cases more with
    | nil =>
      obtain ⟨hstart, -⟩ := hnext brace rfl
      rw [hbrace] at hstart
      cases hstart
    | cons t more =>
      refine ⟨pre ++ t :: more, ?_, by simp⟩
      exact ⟨pre, semicolon, t :: more, hsemicolon, hpre, nofun, hnext.of_append, rfl, rfl⟩
  · obtain ⟨u, post, rfl⟩ := List.exists_cons_of_ne_nil hpost
    have hlen := congrArg List.length hlast
    simp at hlen
    omega

/-- The semicolon is within braces. -/
lemma Lost.braced {closing : Token} (us : List Token) (h : Lost (us ++ (vs ++ [closing])) ts')
    (hdepth : depth us = 0) (hus : Sheltered 0 us) (hclosing : closing.kind = .symbol .rightBrace) :
    ∃ vs', Lost vs vs' ∧ ts' = us ++ (vs' ++ [closing]) := by
  obtain ⟨ws, hlater, rfl⟩ := h.after hdepth hus
  obtain ⟨vs', hwithin, rfl⟩ := hlater.before hclosing
  exact ⟨vs', hwithin, rfl⟩

end

/-! ### The statement after it -/

/-- A simple statement, from its first token on. -/
inductive Simple : List Token → Prop
  | word {t us semicolon} : startsStatement t.kind → Flat us →
      semicolon.kind = .symbol .semicolon → Simple (t :: (us ++ [semicolon]))
  | expression {e us semicolon} : Expression e us → e.widest ≤ maxArguments →
      semicolon.kind = .symbol .semicolon → Simple (us ++ [semicolon])

/-- Reading resumes after a simple statement, if a failure is at its front. -/
lemma Simple.resume_append {ts : List Token} (h : Simple ts) (rest : List Token) :
    resume (ts ++ rest) = rest := by
  cases h with
  | @word t us semicolon ht hus hsemicolon =>
    have hresume := resumeAfter_semicolon (isSymbol_eq_false ht rfl) hus.inert hsemicolon rest
    simpa [resume] using hresume
  | @expression e us semicolon he _ hsemicolon =>
    obtain ⟨t, us, rfl, -⟩ := he.begins
    obtain ⟨ht, hus⟩ := List.forall_mem_cons.mp he.flat.inert
    rw [List.append_assoc]
    exact resumeAfter_semicolon ht.2 hus hsemicolon rest

lemma Flat.cons {us : List Token} {t : Token} (h : Flat us) (hdepth : parenthesis t.kind = 0)
    (ht : startsStatement t.kind = false ∧ t.kind.isSymbol .semicolon = false) : Flat (t :: us) :=
  ⟨by simp [hdepth, h.depth], List.forall_mem_cons.mpr ⟨ht, h.inert⟩⟩

lemma VarDecl.simple {s : Stmt} {ts : List Token} (h : VarDecl s ts) : Simple ts := by
  cases h with
  | @bare var name semicolon hvar hname hsemicolon =>
    have hflat : Flat [name] :=
      flat_nil.cons (by rw [hname]; rfl) (by rw [hname]; exact ⟨rfl, rfl⟩)
    exact .word (by rw [hvar]; rfl) hflat hsemicolon
  | @initialized var name equals e ts semicolon hvar hname hequals he hsemicolon =>
    have hflat : Flat (name :: equals :: ts) :=
      (he.flat.cons (by rw [hequals]; rfl) (by rw [hequals]; exact ⟨rfl, rfl⟩)).cons
        (by rw [hname]; rfl) (by rw [hname]; exact ⟨rfl, rfl⟩)
    exact .word (by rw [hvar]; rfl) hflat hsemicolon

lemma Derives.simple {s : Stmt} {o b : Bool} {ts us : List Token} {t : Token}
    (h : Derives true .declaration s o ts) (hs : Admissible b s) (hts : ts = t :: us)
    (ht : startsSimple t.kind) : Simple ts := by
  have other {word : Token} {k : Kind} {vs : List Token} {p : Prop} (hword : word.kind = k)
      (hk : startsSimple k = false) (hts : word :: vs = t :: us) : p := by
    obtain ⟨rfl, -⟩ := List.cons.inj hts
    rw [hword, hk] at ht
    cases ht
  cases h with
  | classDecl hword => exact other hword rfl hts
  | funDecl hword => exact other hword rfl hts
  | varDecl h => exact h.simple
  | ofStatement h =>
    cases h with
    | exprStmt h =>
      cases h with
      | intro he hsemicolon => exact .expression he (admissible_expression.mp hs) hsemicolon
    | printStmt hword he hsemicolon => exact .word (by rw [hword]; rfl) he.flat hsemicolon
    | breakStmt hword hsemicolon => exact .word (by rw [hword]; rfl) flat_nil hsemicolon
    | returnStmt hword hvalue hsemicolon =>
      exact .word (by rw [hword]; rfl) hvalue.flat hsemicolon
    | ifStmt hword => exact other hword rfl hts
    | ifElse hword => exact other hword rfl hts
    | whileStmt hword => exact other hword rfl hts
    | forStmt hword => exact other hword rfl hts
    | block hopening => exact other hopening rfl hts

section
variable {b : Bool} {c : Cursor} {rest : List Token}

lemma slipsAt_declaration (h : SlipsAt (fun n => bareDeclaration n b) c rest) :
    SlipsAt (fun n => declaration n b) c rest := by
  refine settles_succ ?_
  simp only [declaration_succ]
  exact h.recovering

lemma slipsAt_declaration_of_fails (h : FailsAt (fun n => bareDeclaration n b) c rest) :
    SlipsAt (fun n => declaration n b) c (resume rest) := by
  refine settles_succ ?_
  simp only [declaration_succ]
  exact h.recovering

end

/-- What has lost its semicolon is given up at the simple statement that comes next, together with
that, or is read with it. Either way there is one complaint at most. -/
lemma Unterminated.slipsAt {b : Bool} {pre ts rest : List Token} {c : Cursor}
    (h : Unterminated (fun n => bareDeclaration n b) pre) (hts : Simple ts)
    (hnext : SimpleNext ts) (helse : NoElse rest) (hc : c.rest = pre ++ (ts ++ rest)) :
    SlipsAt (fun n => declaration n b) c rest := by
  have hfails (h : FailsAt (fun n => bareDeclaration n b) c (ts ++ rest)) :
      SlipsAt (fun n => declaration n b) c rest := by
    have hslips := slipsAt_declaration_of_fails h
    rwa [hts.resume_append rest] at hslips
  -- a word stops everything in front of it, an expression may be taken as more of what is there
  cases hts with
  | @word t us semicolon ht _ _ =>
    refine hfails (h.halts c _ (fun u hu => ?_) hc)
    obtain rfl : t = u := by simpa using hu
    exact ht
  | @expression e us semicolon he hw hsemicolon =>
    obtain ⟨t, us, rfl, -⟩ := he.begins
    have hlist : t.kind = .symbol .leftParen → commas us < maxArguments := by
      intro hparen
      have hcommas := (hnext t rfl).2 hparen
      rw [List.takeWhile_append_of_pos fun u hu => by
        simpa using (he.flat.inert u hu).2] at hcommas
      refine lt_of_le_of_lt ?_ hcommas
      exact ((List.sublist_cons_self t us).trans (List.sublist_append_left _ _)).countP_le
    rcases h.meets e t us he hw hlist with hfailing | hslipping
    · refine hfails ?_
      have hfail := hfailing c (semicolon :: rest) (by simpa using hc)
      simpa using hfail
    · exact slipsAt_declaration (hslipping c rest semicolon hsemicolon helse (by simpa using hc))

end Lox.Grammar
