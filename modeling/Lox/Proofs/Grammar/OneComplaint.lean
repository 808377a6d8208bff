import Lox.Proofs.Grammar.LostSemicolon

/-!
What a lost semicolon costs.

A statement may be deep in others when it loses its semicolon. If a simple statement comes next, all
that they are in is read as before, with one complaint at most.
-/

namespace Lox.Grammar

open Rule

/-! ### Where it is lost -/

/-- The rules for a nonterminal read the tokens, with one complaint at most. -/
def Slips (b : Bool) : Nonterminal → Bool → List Token → Prop
  | .statement, o, ts => ∀ c rest, c.rest = ts ++ rest → (o → NoElse rest) →
      SlipsAt (fun n => statement n b) c rest
  | .declaration, o, ts => ∀ c rest, c.rest = ts ++ rest → (o → NoElse rest) →
      SlipsAt (fun n => declaration n b) c rest
  | .declarations, _, ts =>
      (∀ found c closing rest, closing.kind = .symbol .rightBrace → c.rest = ts ++ closing :: rest →
        SlipsAt (fun n => block n b found) c rest) ∧
      (b = false → ∀ found c, c.rest = ts → SlipsAt (fun n => declarations n found) c [])
  | .function sort, _, ts => ∀ c rest, c.rest = ts ++ rest →
      SlipsAt (fun n => function n sort) c rest
  | .members, _, ts => ∀ ms ss c closing rest, closing.kind = .symbol .rightBrace →
      c.rest = ts ++ closing :: rest →
        SlipsAt (fun n => members n ms ss) c (closing :: rest)

section
variable {ts ts' us us' vs rest : List Token} {s s' : Stmt} {o o' b : Bool} {body : List Stmt}
  {e : Expr} {t word word' opening closing semicolon name : Token} {c : Cursor}

/-- A list of declarations slips where the first of them does. -/
lemma slips_cons_first (ts : List Token) (ht : t.kind.isSymbol .rightBrace = false)
    (h : ∀ c rest, c.rest = t :: ts ++ (us ++ rest) → NoElse (us ++ rest) →
      SlipsAt (fun n => declaration n b) c (us ++ rest))
    (hs : Derives true .declarations body false us) (hadm : ∀ s ∈ body, Admissible b s) :
    Slips b .declarations false (t :: ts ++ us) := by
  constructor
  · intro found c closing rest hclosing hc
    rw [List.append_assoc] at hc
    refine settles_block_next ht hc ?_
    have hdeclaration := h c (closing :: rest) hc
      (noElse_of_declarations hs (noElse_of_symbol hclosing))
    exact hdeclaration.bind fun r c₁ hc₁ =>
      (hs.covered.1 b hadm _ c₁ closing rest hclosing hc₁).mono fun _ _ => trivial
  · rintro rfl found c hc
    refine settles_declarations_next hc ?_
    have hdeclaration := h c [] (by simpa using hc) (noElse_of_declarations hs noElse_nil)
    rw [List.append_nil] at hdeclaration
    exact hdeclaration.bind fun r c₁ hc₁ =>
      (hs.covered.2 hadm _ c₁ hc₁).mono fun _ _ => trivial

/-- A list of declarations slips where the rest of it does. -/
lemma slips_cons_rest (h : Derives true .declaration s o ts) (hs : Admissible b s)
    (hus : ∀ rest, NoElse (us ++ rest)) (ih : Slips b .declarations false us) :
    Slips b .declarations false (ts ++ us) := by
  have hcovered := h.covered b hs
  obtain ⟨t, ts, rfl, ht⟩ := h.starts_of_declaration
  constructor
  · intro found c closing rest hclosing hc
    rw [List.append_assoc] at hc
    refine settles_block_next (isSymbol_eq_false ht rfl) hc ?_
    refine settles_bind (hcovered c _ hc fun _ => hus _) fun r j _ => ?_
    exact ih.1 _ _ closing rest hclosing rfl
  · rintro rfl found c hc
    refine settles_declarations_next hc ?_
    have helse : NoElse us := by simpa using hus []
    exact settles_bind (hcovered c us hc fun _ => helse) fun r j _ => ih.2 rfl _ _ rfl

lemma noElse_of_lost (h : Derives true .declarations body o us) (hlost : Lost us us') :
    NoElse (us' ++ rest) := by
  cases h with
  | nil =>
    obtain ⟨pre, semicolon, post, -, -, -, -, hnil, -⟩ := hlost
    exact absurd hnil (by simp)
  | cons h _ =>
    obtain ⟨t, us, rfl, ht⟩ := h.starts_of_declaration
    obtain ⟨vs, rfl⟩ := hlost.exists_front (isSymbol_eq_false ht rfl)
    simpa [NoElse] using isKeyword_eq_false ht rfl

lemma slips_cons (h : Derives true .declaration s o ts) (hs : Admissible b s)
    (hbody : Derives true .declarations body false us) (hadm : ∀ s ∈ body, Admissible b s)
    (ih : ∀ ts', Lost ts ts' → Slips b .declaration o ts')
    (ihs : ∀ us', Lost us us' → Slips b .declarations false us') (hlost : Lost (ts ++ us) ts') :
    Slips b .declarations false ts' := by
  have hunended := h.unended
  obtain ⟨t, ts, rfl, ht⟩ := h.starts_of_declaration
  have hbrace : t.kind.isSymbol .rightBrace = false := isSymbol_eq_false ht rfl
  obtain ⟨vs, hfirst, rfl⟩ | ⟨pre, semicolon, hpre, hkind, hnext, hne, rfl⟩ | ⟨vs, hrest, rfl⟩ :=
    hlost.of_append h.depth_eq
  · obtain ⟨vs, rfl⟩ := hfirst.exists_front (isSymbol_eq_false ht rfl)
    exact slips_cons_first vs hbrace (fun c rest hc helse => ih _ hfirst c _ hc fun _ => helse)
      hbody hadm
  · -- the statement that has lost its semicolon, and a simple statement after it
    have hunterminated := hunended b pre semicolon hs hkind hpre
    cases pre with
    | nil =>
      obtain ⟨rfl, -⟩ := List.cons.inj hpre
      rw [hkind] at ht
      exact absurd ht (by decide)
    | cons u pre =>
      obtain ⟨rfl, -⟩ := List.cons.inj hpre
      cases hbody with
      | nil => exact absurd rfl hne
      | @cons s' o' xs body ys h' hbody =>
        obtain ⟨hs', hadm⟩ := List.forall_mem_cons.mp hadm
        have hsimple : Simple xs := by
          obtain ⟨x, xs, rfl, -⟩ := h'.starts_of_declaration
          exact h'.simple hs' rfl (hnext x rfl).1
        rw [← List.append_assoc]
        refine slips_cons_first (pre ++ xs) hbrace (fun c rest hc helse => ?_) hbody hadm
        exact hunterminated.slipsAt hsimple hnext.of_append helse (by simpa using hc)
  · exact slips_cons_rest h hs (fun rest => noElse_of_lost hbody hrest) (ihs _ hrest)

lemma slips_classDecl (hword : word.kind = .keyword .kwClass) (hname : name.kind = .identifier)
    (hopening : opening.kind = .symbol .leftBrace) (hclosing : closing.kind = .symbol .rightBrace)
    (ih : Slips b .members false ts) :
    Slips b .declaration false (word :: name :: opening :: (ts ++ [closing])) := by
  intro c rest hc _
  refine slipsAt_declaration (settles_class_bare hword hc ?_)
  refine settles_classDeclaration hname hopening rfl ?_
  refine (ih [] [] _ closing rest hclosing (by simp)).bind fun r c₁ hc₁ => ?_
  exact settles_expect_bind hc₁ (by rw [hclosing]; rfl) (yieldsAt_pure trivial rfl)

lemma slips_funDecl (hword : word.kind = .keyword .kwFun)
    (ih : Slips b (.function .function) false ts) :
    Slips b .declaration false (word :: ts) := fun _ rest hc _ =>
  slipsAt_declaration (settles_function_bare hword hc ((ih _ rest rfl).map _))

lemma slips_ofStatement (ht : Nonterminal.statement.starts t.kind)
    (ih : Slips b .statement o (t :: ts)) : Slips b .declaration o (t :: ts) := fun c rest hc ho =>
  slipsAt_declaration (settles_statement_bare ht hc (ih c rest hc ho))

lemma slips_method_first {methods statics : List FunctionDecl} (ht : t.kind.isIdentifier)
    (ih : Slips b (.function .method) false (t :: ts))
    (h : Derives true .members (methods, statics) false us)
    (hadm : Nonterminal.members.Admissible b (methods, statics)) :
    Slips b .members false (t :: ts ++ us) := by
  intro ms ss c closing rest hclosing hc
  refine settles_instanceMethod ht hc ?_
  refine (ih c (us ++ closing :: rest) (by simp [hc])).bind fun m c₁ hc₁ => ?_
  exact (h.covered hadm.1 hadm.2 _ ss c₁ closing rest hclosing hc₁).mono fun _ _ => trivial

lemma slips_method_rest {m : FunctionDecl} (h : Derives true (.function .method) m false ts)
    (hm : AdmissibleDecl m) (ih : Slips b .members false us) :
    Slips b .members false (ts ++ us) := by
  intro ms ss c closing rest hclosing hc
  have hcovered := h.covered hm c (us ++ closing :: rest) (by simp [hc])
  obtain ⟨t, ts, rfl, ht⟩ := h.starts_of_function
  refine settles_instanceMethod ht hc ?_
  exact settles_bind hcovered fun m' j _ => ih _ ss _ closing rest hclosing rfl

lemma slips_staticMethod_first {methods statics : List FunctionDecl}
    (hword : word.kind = .keyword .kwClass) (ih : Slips b (.function .method) false ts)
    (h : Derives true .members (methods, statics) false us)
    (hadm : Nonterminal.members.Admissible b (methods, statics)) :
    Slips b .members false (word :: (ts ++ us)) := by
  intro ms ss c closing rest hclosing hc
  refine settles_staticMethod hword hc ?_
  refine (ih _ (us ++ closing :: rest) (by simp)).bind fun m c₁ hc₁ => ?_
  exact (h.covered hadm.1 hadm.2 ms _ c₁ closing rest hclosing hc₁).mono fun _ _ => trivial

lemma slips_staticMethod_rest {m : FunctionDecl} (hword : word.kind = .keyword .kwClass)
    (h : Derives true (.function .method) m false ts) (hm : AdmissibleDecl m)
    (ih : Slips b .members false us) : Slips b .members false (word :: (ts ++ us)) := by
  intro ms ss c closing rest hclosing hc
  refine settles_staticMethod hword hc ?_
  refine settles_bind (h.covered hm _ (us ++ closing :: rest) (by simp)) fun m' j _ => ?_
  exact ih ms _ _ closing rest hclosing rfl

lemma slips_function {sort : FunctionSort} {params : List Token} {brace brace' : Token}
    (hname : name.kind = .identifier) (hopening : opening.kind = .symbol .leftParen)
    (hparams : Names params ts) (hclosing : closing.kind = .symbol .rightParen)
    (hlen : params.length ≤ maxArguments) (hbrace : brace.kind = .symbol .leftBrace)
    (hbrace' : brace'.kind = .symbol .rightBrace) (ih : Slips false .declarations false us) :
    Slips b (.function sort) false
      (name :: opening :: (ts ++ closing :: brace :: (us ++ [brace']))) := fun c rest hc =>
  settles_function (us ++ brace' :: rest) hname hopening hparams hclosing hlen hbrace
    (by simp [hc]) fun _ => SlipsAt.map (ih.1 [] _ brace' rest hbrace' rfl) _

lemma slips_getter {brace brace' : Token} (hname : name.kind = .identifier)
    (hbrace : brace.kind = .symbol .leftBrace) (hbrace' : brace'.kind = .symbol .rightBrace)
    (ih : Slips false .declarations false us) :
    Slips b (.function .method) false (name :: brace :: (us ++ [brace'])) := fun c rest hc =>
  settles_getter (us ++ brace' :: rest) hname hbrace (by simp [hc])
    fun _ => SlipsAt.map (ih.1 [] _ brace' rest hbrace' rfl) _

lemma slips_block (hopening : opening.kind = .symbol .leftBrace)
    (hclosing : closing.kind = .symbol .rightBrace) (ih : Slips b .declarations false ts) :
    Slips b .statement false (opening :: (ts ++ [closing])) := fun c rest hc _ =>
  settles_blockStatement hopening hc
    (SlipsAt.map (ih.1 [] _ closing rest hclosing (by simp)) _)

lemma slips_whileStmt (hword : word.kind = .keyword .kwWhile)
    (hopening : opening.kind = .symbol .leftParen) (he : Expression e ts)
    (hw : e.widest ≤ maxArguments) (hclosing : closing.kind = .symbol .rightParen)
    (ih : Slips true .statement o us) :
    Slips b .statement o (word :: opening :: (ts ++ closing :: us)) := fun c rest hc ho =>
  settles_whileStatement (us ++ rest) hword hopening he hw hclosing (by simp [hc])
    fun _ _ _ => SlipsAt.map (ih _ rest rfl ho) _

lemma slips_forStmt {first : Option Stmt} {condition increment : Option Expr} {ws : List Token}
    (hword : word.kind = .keyword .kwFor) (hopening : opening.kind = .symbol .leftParen)
    (hfirst : ForFirst first ts) (hcondition : OptExpression condition us)
    (hsemicolon : semicolon.kind = .symbol .semicolon) (hincrement : OptExpression increment vs)
    (hclosing : closing.kind = .symbol .rightParen) (hf : ∀ s ∈ first, Admissible b s)
    (hwc : ∀ e ∈ condition, e.widest ≤ maxArguments)
    (hwi : ∀ e ∈ increment, e.widest ≤ maxArguments) (ih : Slips true .statement o ws) :
    Slips b .statement o
      (word :: opening :: (ts ++ (us ++ semicolon :: (vs ++ closing :: ws)))) := fun c rest hc ho =>
  settles_forStatement (ws ++ rest) hword hopening hfirst hcondition hsemicolon hincrement
    hclosing hf hwc hwi (by simp [hc]) fun _ _ _ => SlipsAt.map (ih _ rest rfl ho) _

lemma slips_ifStmt (hword : word.kind = .keyword .kwIf)
    (hopening : opening.kind = .symbol .leftParen) (he : Expression e ts)
    (hw : e.widest ≤ maxArguments) (hclosing : closing.kind = .symbol .rightParen)
    (ih : Slips b .statement o us) :
    Slips b .statement true (word :: opening :: (ts ++ closing :: us)) := by
  intro c rest hc ho
  refine settles_ifStatement (us ++ rest) hword hopening he hw hclosing (by simp [hc])
    fun e' j _ => ?_
  refine (ih _ rest rfl fun _ => ho rfl).bind fun s' c₁ hc₁ => ?_
  subst hc₁
  exact (yieldsAt_noElseBranch (ho rfl)).mono fun _ _ => trivial

lemma slips_ifElse_first (hword : word.kind = .keyword .kwIf)
    (hopening : opening.kind = .symbol .leftParen) (he : Expression e ts)
    (hw : e.widest ≤ maxArguments) (hclosing : closing.kind = .symbol .rightParen)
    (hword' : word'.kind = .keyword .kwElse) (ih : Slips b .statement false us)
    (h : Derives true .statement s o vs) (hs : Admissible b s) :
    Slips b .statement o (word :: opening :: (ts ++ closing :: (us ++ word' :: vs))) := by
  intro c rest hc ho
  refine settles_ifStatement (us ++ word' :: (vs ++ rest)) hword hopening he hw hclosing
    (by simp [hc]) fun e' j _ => ?_
  refine (ih _ (word' :: (vs ++ rest)) rfl nofun).bind fun r c₁ hc₁ => ?_
  refine settles_elseBranch hword' hc₁ (yieldsAt_map ?_)
  exact (h.covered b hs _ rest rfl ho).mono fun _ _ => trivial

lemma slips_ifElse_rest (hword : word.kind = .keyword .kwIf)
    (hopening : opening.kind = .symbol .leftParen) (he : Expression e ts)
    (hw : e.widest ≤ maxArguments) (hclosing : closing.kind = .symbol .rightParen)
    (hword' : word'.kind = .keyword .kwElse) (h : Derives true .statement s false us)
    (hs : Admissible b s) (ih : Slips b .statement o vs) :
    Slips b .statement o (word :: opening :: (ts ++ closing :: (us ++ word' :: vs))) := by
  intro c rest hc ho
  refine settles_ifStatement (us ++ word' :: (vs ++ rest)) hword hopening he hw hclosing
    (by simp [hc]) fun e' j _ => ?_
  refine settles_bind (h.covered b hs _ (word' :: (vs ++ rest)) rfl nofun) fun r k _ => ?_
  exact settles_elseBranch hword' rfl (SlipsAt.map (ih _ rest rfl ho) _)

/-- The semicolon comes after a condition in parentheses. -/
lemma Lost.after_condition (h : Lost (word :: opening :: (ts ++ closing :: us)) ts')
    {k : Keyword} (hword : word.kind = .keyword k)
    (hopening : opening.kind = .symbol .leftParen) (hts : Flat ts)
    (hclosing : closing.kind = .symbol .rightParen) :
    ∃ us', Lost us us' ∧ ts' = word :: opening :: (ts ++ closing :: us') := by
  have h : Lost (word :: opening :: (ts ++ [closing]) ++ us) ts' := by simpa using h
  obtain ⟨us', hlost, rfl⟩ := h.after (by simp [hword, hopening, hts.depth, hclosing, parenthesis])
    (by simp [Sheltered, sheltered_append, hword, hopening, hts.sheltered, hclosing])
  exact ⟨us', hlost, by simp⟩

/-- The semicolon comes after the head of a for loop. -/
lemma Lost.after_forHead {first : Option Stmt} {condition increment : Option Expr} {ws : List Token}
    (h : Lost (word :: opening :: (ts ++ (us ++ semicolon :: (vs ++ closing :: ws)))) ts')
    (hword : word.kind = .keyword .kwFor) (hopening : opening.kind = .symbol .leftParen)
    (hfirst : ForFirst first ts) (hcondition : OptExpression condition us)
    (hsemicolon : semicolon.kind = .symbol .semicolon) (hincrement : OptExpression increment vs)
    (hclosing : closing.kind = .symbol .rightParen) :
    ∃ ws', Lost ws ws' ∧
      ts' = word :: opening :: (ts ++ (us ++ semicolon :: (vs ++ closing :: ws'))) := by
  obtain @⟨ts, semicolon', hsemicolon', hdepth, hts⟩ := hfirst.terminated
  have h : Lost (word :: opening :: (ts ++ semicolon' :: (us ++ semicolon :: (vs ++ [closing]))) ++
      ws) ts' := by simpa using h
  -- one parenthesis is open at both semicolons of the head
  obtain ⟨ws', hlost, rfl⟩ := h.after
    (by simp [hword, hopening, hdepth, hsemicolon', hcondition.flat.depth, hsemicolon,
      hincrement.flat.depth, hclosing, parenthesis])
    (by simp [Sheltered, sheltered_append, hword, hopening, hdepth, hsemicolon', hsemicolon,
      hclosing, parenthesis, hcondition.flat.depth, sheltered_of_forall hts,
      hcondition.flat.sheltered, hincrement.flat.sheltered])
  exact ⟨ws', hlost, by simp⟩

lemma slips_ifElse (hword : word.kind = .keyword .kwIf)
    (hopening : opening.kind = .symbol .leftParen) (he : Expression e ts)
    (hw : e.widest ≤ maxArguments) (hclosing : closing.kind = .symbol .rightParen)
    (hword' : word'.kind = .keyword .kwElse) (h : Derives true .statement s false us)
    (hs : Admissible b s) (h' : Derives true .statement s' o vs) (hs' : Admissible b s')
    (ih : ∀ us', Lost us us' → Slips b .statement false us')
    (ih' : ∀ vs', Lost vs vs' → Slips b .statement o vs')
    (hlost : Lost (word :: opening :: (ts ++ closing :: (us ++ word' :: vs))) ts') :
    Slips b .statement o ts' := by
  obtain ⟨ws, hbranches, rfl⟩ := hlost.after_condition hword hopening he.flat hclosing
  obtain ⟨us', hfirst, rfl⟩ | ⟨pre, semicolon, -, -, hnext, -⟩ | ⟨vs', hrest, rfl⟩ :=
    hbranches.of_append h.depth_eq
  · exact slips_ifElse_first hword hopening he hw hclosing hword' (ih us' hfirst) h' hs'
  · -- right before the else there is no simple statement
    obtain ⟨hstart, -⟩ := hnext word' rfl
    rw [hword'] at hstart
    cases hstart
  · obtain ⟨vs', hsecond, rfl⟩ := hrest.after_word (by rw [hword']; rfl) (by simp [hword'])
    exact slips_ifElse_rest hword hopening he hw hclosing hword' h hs (ih' vs' hsecond)

lemma slips_instanceMethod {m : FunctionDecl} {methods statics : List FunctionDecl}
    (h : Derives true (.function .method) m false ts)
    (hs : Derives true .members (methods, statics) false us) (hm : AdmissibleDecl m)
    (hadm : Nonterminal.members.Admissible b (methods, statics))
    (ih : ∀ ts', Lost ts ts' → Slips b (.function .method) false ts')
    (ihs : ∀ us', Lost us us' → Slips b .members false us') (hlost : Lost (ts ++ us) ts') :
    Slips b .members false ts' := by
  obtain ⟨vs, hfirst, rfl⟩ | ⟨pre, semicolon, hpre, hsemicolon, -⟩ | ⟨vs, hrest, rfl⟩ :=
    hlost.of_append h.depth_eq
  · obtain ⟨t, ts, rfl, ht⟩ := h.starts_of_function
    obtain ⟨vs', rfl⟩ := hfirst.exists_front (isSymbol_eq_false ht rfl)
    exact slips_method_first ht (ih _ hfirst) hs hadm
  · obtain ⟨us', brace, rfl, hbrace⟩ := h.exists_brace
    exact absurd hpre (not_brace_last _ hsemicolon hbrace)
  · exact slips_method_rest h hm (ihs _ hrest)

lemma slips_staticMethod {m : FunctionDecl} {methods statics : List FunctionDecl}
    (hword : word.kind = .keyword .kwClass) (h : Derives true (.function .method) m false ts)
    (hs : Derives true .members (methods, statics) false us) (hm : AdmissibleDecl m)
    (hadm : Nonterminal.members.Admissible b (methods, statics))
    (ih : ∀ ts', Lost ts ts' → Slips b (.function .method) false ts')
    (ihs : ∀ us', Lost us us' → Slips b .members false us')
    (hlost : Lost (word :: (ts ++ us)) ts') : Slips b .members false ts' := by
  obtain ⟨ws, hlater, rfl⟩ := hlost.after_word (by rw [hword]; rfl) (by simp [hword])
  obtain ⟨vs, hfirst, rfl⟩ | ⟨pre, semicolon, hpre, hsemicolon, -⟩ | ⟨vs, hrest, rfl⟩ :=
    hlater.of_append h.depth_eq
  · exact slips_staticMethod_first hword (ih _ hfirst) hs hadm
  · obtain ⟨us', brace, rfl, hbrace⟩ := h.exists_brace
    exact absurd hpre (not_brace_last _ hsemicolon hbrace)
  · exact slips_staticMethod_rest hword h hm (ihs _ hrest)

end

/-! ### All declarations and statements -/

/-- A declaration or statement that has lost a semicolon, before a simple statement within it, is
read with one complaint at most. -/
lemma Derives.slips {q : Nonterminal} {x : q.Tree} {o b : Bool} {ts ts' : List Token}
    (h : Derives true q x o ts) (hx : q.Admissible b x) (hlost : Lost ts ts') :
    Slips b q o ts' := by
  -- on the derivation: the semicolon is in one part, and the others are read as before
  induction h generalizing b ts' with
  | nil | noMembers =>
    obtain ⟨pre, semicolon, post, -, -, -, -, hts, -⟩ := hlost
    exact absurd hts (by simp)
  | cons h hs ih ihs =>
    obtain ⟨hx, hxs⟩ := List.forall_mem_cons.mp hx
    exact slips_cons h hx hs hxs (fun _ => ih hx) (fun _ => ihs hxs) hlost
  | classDecl hword hname hopening _ hclosing ih =>
    obtain ⟨vs, hmembers, rfl⟩ := Lost.braced [_, _, _] hlost
      (by simp [hword, hname, hopening, parenthesis])
      (by simp [Sheltered, hword, hname, hopening]) hclosing
    exact slips_classDecl hword hname hopening hclosing (ih (admissible_classDecl.mp hx) hmembers)
  | funDecl hword _ ih =>
    obtain ⟨vs, hfunction, rfl⟩ := hlost.after_word (by rw [hword]; rfl) (by simp [hword])
    exact slips_funDecl hword (ih (b := b) (admissible_function.mp hx) hfunction)
  | varDecl h =>
    -- its semicolon is the last token, so nothing comes after it here
    exact absurd h.terminated hlost.not_terminated
  | ofStatement h ih =>
    have hslips := ih hx hlost
    obtain ⟨t, us, rfl, ht⟩ := h.starts_of_statement
    obtain ⟨us', rfl⟩ := hlost.exists_front (isSymbol_eq_false ht rfl)
    exact slips_ofStatement ht hslips
  | instanceMethod h hs ih ihs =>
    obtain ⟨hm, hms⟩ := List.forall_mem_cons.mp hx.1
    exact slips_instanceMethod h hs hm ⟨hms, hx.2⟩ (fun _ => ih hm) (fun _ => ihs ⟨hms, hx.2⟩) hlost
  | staticMethod hword h hs ih ihs =>
    obtain ⟨hm, hss⟩ := List.forall_mem_cons.mp hx.2
    exact slips_staticMethod hword h hs hm ⟨hx.1, hss⟩ (fun _ => ih hm) (fun _ => ihs ⟨hx.1, hss⟩)
      hlost
  | @function _ name opening params ts closing brace body us brace' hname hopening hparams hclosing
      hbrace _ hbrace' ih =>
    have hlost : Lost (name :: opening :: (ts ++ [closing, brace]) ++ (us ++ [brace'])) ts' := by
      simpa using hlost
    obtain ⟨vs, hbody, rfl⟩ := hlost.braced _
      (by simp [hname, hopening, hparams.depth, hclosing, hbrace, parenthesis])
      (by simp [Sheltered, sheltered_append, hname, hopening, hclosing, hbrace,
        sheltered_of_forall fun _ => hparams.not_semicolon])
      hbrace'
    simpa using slips_function hname hopening hparams hclosing (hx.1 _ rfl) hbrace hbrace'
      (ih hx.2 hbody)
  | getter hname hbrace _ hbrace' ih =>
    obtain ⟨vs, hbody, rfl⟩ := Lost.braced [_, _] hlost
      (by simp [hname, hbrace, parenthesis]) (by simp [Sheltered, hname, hbrace]) hbrace'
    exact slips_getter hname hbrace hbrace' (ih (b := false) hx.2 hbody)
  | exprStmt h => exact absurd h.terminated hlost.not_terminated
  | printStmt hword he hsemicolon =>
    exact absurd (terminated_word hword he.flat hsemicolon) hlost.not_terminated
  | ifStmt hword hopening he hclosing _ ih =>
    obtain ⟨hw, hs, -⟩ := admissible_branch.mp hx
    obtain ⟨us, hbody, rfl⟩ := hlost.after_condition hword hopening he.flat hclosing
    exact slips_ifStmt hword hopening he hw hclosing (ih hs hbody)
  | ifElse hword hopening he hclosing h ho hword' h' ih ih' =>
    obtain rfl := ho rfl
    obtain ⟨hw, hs, hs'⟩ := admissible_branch.mp hx
    exact slips_ifElse hword hopening he hw hclosing hword' h hs h' (hs' _ rfl) (fun _ => ih hs)
      (fun _ => ih' (hs' _ rfl)) hlost
  | whileStmt hword hopening he hclosing _ ih =>
    obtain ⟨hw, hs⟩ := admissible_loop.mp hx
    obtain ⟨us, hbody, rfl⟩ := hlost.after_condition hword hopening he.flat hclosing
    exact slips_whileStmt hword hopening he hw hclosing (ih hs hbody)
  | forStmt hword hopening hfirst hcondition hsemicolon hincrement hclosing _ ih =>
    obtain ⟨hf, hwc, hwi, hs⟩ := admissible_forLoop.mp hx
    obtain ⟨ws, hbody, rfl⟩ := hlost.after_forHead hword hopening hfirst hcondition hsemicolon
      hincrement hclosing
    exact slips_forStmt hword hopening hfirst hcondition hsemicolon hincrement hclosing hf hwc hwi
      (ih hs hbody)
  | breakStmt hword hsemicolon =>
    exact absurd (terminated_word hword flat_nil hsemicolon) hlost.not_terminated
  | returnStmt hword hvalue hsemicolon =>
    exact absurd (terminated_word hword hvalue.flat hsemicolon) hlost.not_terminated
  | block hopening _ hclosing ih =>
    obtain ⟨vs, hbody, rfl⟩ := Lost.braced [_] hlost (by simp [hopening, parenthesis])
      (by simp [Sheltered, hopening]) hclosing
    exact slips_block hopening hclosing (ih (admissible_block.mp hx) hbody)

/-- A program that has lost the semicolon at its end fails there. -/
lemma slips_of_last {body : List Stmt} {pre ts : List Token} {semicolon : Token} {o : Bool}
    (h : Derives true .declarations body o ts) (hadm : ∀ s ∈ body, Admissible false s)
    (hsemicolon : semicolon.kind = .symbol .semicolon) (hts : ts = pre ++ [semicolon])
    {found : List Stmt} {c : Cursor} (hc : c.rest = pre) :
    SlipsAt (fun n => declarations n found) c [] := by
  induction body generalizing ts pre found c o with
  | nil =>
    cases h
    exact absurd hts (by simp)
  | cons s body ih =>
    cases h with
    | @cons _ o ts _ us h hbody =>
      obtain ⟨hs, hbs⟩ := List.forall_mem_cons.mp hadm
      have hunended := h.unended
      have hcovered := h.covered false hs
      obtain ⟨t, ts, rfl, ht⟩ := h.starts_of_declaration
      obtain rfl | hne := eq_or_ne us []
      · -- the last declaration fails at the end of input
        rw [List.append_nil] at hts
        have hfails := (hunended false pre semicolon hs hsemicolon hts).halts c []
          (by simp) (by simpa using hc)
        cases pre with
        | nil =>
          obtain ⟨rfl, -⟩ := List.cons.inj hts
          rw [hsemicolon] at ht
          exact absurd ht (by decide)
        | cons u pre =>
          refine settles_declarations_next hc ?_
          exact (slipsAt_declaration_of_fails hfails).bind fun r c₁ hc₁ =>
            (covered_nil.2 (by simp) _ c₁ hc₁).mono fun _ _ => trivial
      · obtain ⟨us, rfl, rfl⟩ := exists_init _ hne hts
        refine settles_declarations_next hc ?_
        refine settles_bind (hcovered c us hc fun _ => ?_) fun r j _ => ih hbody hbs rfl rfl
        have hnext := noElse_of_declarations hbody noElse_nil
        cases us with
        | nil => exact noElse_nil
        | cons u us => exact hnext

/-- A program that is accepted, without a semicolon that ends a statement. If what comes after it is
the end of input or a simple statement, there is one complaint at most. -/
lemma Derives.slips_declarations {body : List Stmt} {pre post ts : List Token} {semicolon : Token}
    (h : Derives true .declarations body false ts) (hadm : ∀ s ∈ body, Admissible false s)
    (hsemicolon : semicolon.kind = .symbol .semicolon) (hdepth : depth pre = 0)
    (hnext : SimpleNext post) (hts : ts = pre ++ semicolon :: post) {c : Cursor}
    (hc : c.rest = pre ++ post) : SlipsAt (fun n => declarations n []) c [] := by
  obtain rfl | hne := eq_or_ne post []
  · rw [List.append_nil] at hc
    exact slips_of_last h hadm hsemicolon hts hc
  · have hlost : Lost ts (pre ++ post) :=
      ⟨pre, semicolon, post, hsemicolon, hdepth, hne, hnext, hts, rfl⟩
    exact (h.slips (b := false) hadm hlost).2 rfl [] c hc

/-- A program that is accepted has lost one semicolon, which ended a simple statement: it separated
no clauses of a for loop. If what comes after it is the end of input, or another simple statement,
then there is one error at most. -/
theorem program_of_lost_semicolon {tokens tokens' pre post : List Token} {semicolon : Token}
    {body : List Stmt} {firstId firstId' : NodeId}
    (haccepted : (program tokens firstId).result = .ok body)
    (hsemicolon : semicolon.kind = .symbol .semicolon)
    (hbefore : beforeEnd tokens = pre ++ semicolon :: post) (hends : ¬Separates semicolon pre)
    (hnext : SimpleNext post) (hlost : beforeEnd tokens' = pre ++ post) :
    (∃ body', (program tokens' firstId').result = .ok body') ∨
      ∃ e, (program tokens' firstId').result = .error [e] := by
  have hread := program_sound haccepted
  have hdepth : depth pre = 0 :=
    (hread.derives.placed pre semicolon post hsemicolon hbefore).resolve_right hends
  obtain ⟨_, ⟨body', j, es, hes, rfl⟩, hev⟩ := hread.derives.slips_declarations
    hread.admissible hsemicolon hdepth hnext hbefore (c := .start tokens' firstId') hlost
  obtain ⟨n, hn⟩ := hev.exists
  replace hn : declarations n [] (.start tokens' firstId') = _ := hn
  rw [program_of_done hn]
  obtain rfl | ⟨e, rfl⟩ : es = [] ∨ ∃ e, es = [e] := by
    rw [← List.length_eq_zero_iff, ← List.length_eq_one_iff]
    omega
  · exact .inl ⟨body', rfl⟩
  · exact .inr ⟨e, rfl⟩

lemma exists_of_isOk {ε α : Type} {r : Except ε α} (h : r.isOk) : ∃ a, r = .ok a := by
  cases r with
  | ok a => exact ⟨a, rfl⟩
  | error e => cases h

/-- Where the next statement in a block is simple, only the lost semicolon is reported. -/
theorem program_of_lost_semicolon_in_block :
    let pre : List Token := [⟨.symbol .leftBrace, "\x7b", 1⟩, ⟨.keyword .kwPrint, "print", 1⟩,
      ⟨.identifier, "a", 1⟩]
    let post : List Token := [⟨.keyword .kwPrint, "print", 2⟩, ⟨.identifier, "b", 2⟩,
      ⟨.symbol .semicolon, ";", 2⟩, ⟨.symbol .rightBrace, "\x7d", 2⟩]
    let tokens' := pre ++ (post ++ [⟨.eof, "", 3⟩])
    ((∃ body, (program tokens' 0).result = .ok body) ∨
      ∃ e, (program tokens' 0).result = .error [e]) ∧
    (program tokens' 0).result =
      .error [.grammar 2 (.token "print") (.expectedSymbol .semicolon .afterValue)] := by
  intro pre post tokens'
  have haccepted : (program (pre ++ ⟨.symbol .semicolon, ";", 1⟩ :: (post ++ [⟨.eof, "", 3⟩]))
      0).result.isOk := by decide +kernel
  obtain ⟨body, hbody⟩ := exists_of_isOk haccepted
  have hends : ¬Separates ⟨.symbol .semicolon, ";", 1⟩ pre := not_separates (by simp [pre])
  have hnext : SimpleNext post := by
    intro t ht
    obtain rfl : ⟨.keyword .kwPrint, "print", 2⟩ = t := by simpa [post] using ht
    exact ⟨rfl, fun hparen => absurd hparen (by decide)⟩
  exact ⟨program_of_lost_semicolon hbody rfl rfl hends hnext rfl, rfl⟩

/-- Where the block ends right after the lost semicolon, its brace is skipped in search of the next
statement, and then it is missed: that is a second error. -/
theorem program_of_lost_semicolon_at_brace :
    let pre : List Token := [⟨.symbol .leftBrace, "\x7b", 1⟩, ⟨.keyword .kwPrint, "print", 1⟩,
      ⟨.identifier, "a", 1⟩]
    let post : List Token := [⟨.symbol .rightBrace, "\x7d", 1⟩, ⟨.eof, "", 2⟩]
    (program (pre ++ ⟨.symbol .semicolon, ";", 1⟩ :: post) 0).result =
      .ok [.block [.print (.reference 0 ⟨.identifier, "a", 1⟩)]] ∧
    ¬Separates ⟨.symbol .semicolon, ";", 1⟩ pre ∧
    (program (pre ++ post) 0).result =
      .error [.grammar 1 (.token "\x7d") (.expectedSymbol .semicolon .afterValue),
        .grammar 2 .endOfInput (.expectedSymbol .rightBrace .afterBlock)] := by
  intro pre post
  exact ⟨rfl, not_separates (by simp [pre]), rfl⟩

end Lox.Grammar
