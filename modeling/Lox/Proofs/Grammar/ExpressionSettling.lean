import Lox.Proofs.Grammar.Settling

/-!
Every text of an expression is read as that expression, whatever follows that stops it.

A level that chains operators reads on after its first operands. So what is shown of a chain is
that its reader comes to the end of the chain and goes on from there.
-/

namespace Lox.Grammar

open Rule

/-- The levels that read on after an expression, as chains and calls do. -/
def Level.readsOn : Level → Bool
  | comma | or | and | equality | comparison | term | factor | call => true
  | _ => false

/-- How a level reads on after an expression. -/
def readOn (l : Level) (n : ℕ) (e : Expr) : Rule Expr :=
  if l = .call then suffixes n e else chain n l e

/-- The level reads the text of the expression, whatever follows that stops it. -/
def Covers (l : Level) (e : Expr) : Prop :=
  ∀ ts rest c, Spells e.yield ts → Stops l rest → c.rest = ts ++ rest →
    YieldsAt (fun n => expr n l) c rest (·.unnumbered = e.unnumbered)

/-- The level reads the text of the expression, and goes on with whatever follows. -/
def Passes (l : Level) (e : Expr) : Prop :=
  ∀ ts rest c, Spells e.yield ts → Stops l.tighter rest → c.rest = ts ++ rest →
    ∃ e' j, e'.unnumbered = e.unnumbered ∧ ∀ S,
      Settles (fun n => readOn l n e') { c with rest, nextId := j } S →
        Settles (fun n => expr n l) c S

section
variable {l : Level} {e : Expr}

lemma expr_readsOn (hl : l.readsOn) (n : ℕ) :
    expr (n + 1) l = expr n l.tighter >>= readOn l n := by
  cases l <;> first | rfl | exact absurd hl (by decide)

lemma readsOn_of_chains {k : Kind} (h : l.chains k) : l.readsOn ∧ l ≠ .call := by
  unfold Level.chains at h
  split at h <;> first | decide | exact absurd h (by decide)

@[simp] lemma readOn_call (n : ℕ) (e : Expr) : readOn .call n e = suffixes n e := rfl

lemma readOn_of_ne_call (hl : l ≠ .call) (n : ℕ) (e : Expr) : readOn l n e = chain n l e :=
  if_neg hl

/-- Reading on ends at once where the level stops. -/
lemma settles_readOn {c : Cursor} (hc : Stops l c.rest) :
    Settles (fun n => readOn l n e) c (· = .done e c) := by
  refine settles_succ ?_
  by_cases hl : l = .call
  · subst hl
    -- what follows is neither a parenthesis nor a dot
    have hkind : continues? c.front.kind ≠ some .call := by
      unfold Cursor.front
      cases hr : c.rest with
      | nil => simp [c.stop_kind, continues?]
      | cons t us => exact fun ht => absurd (stops_cons.mp (hr ▸ hc) _ ht) (by simp)
    simp only [readOn_call, suffixes]
    refine settles_of_done (a := c.front) rfl ?_
    split
    · simp_all [continues?]
    · simp_all [continues?]
    · exact settles_pure rfl
  · simp only [readOn_of_ne_call hl, chain]
    refine settles_not_accept_bind (hc.head fun k hk => ?_) (settles_pure rfl)
    exact ⟨l, continues?_of_chains hk, le_rfl⟩

lemma yieldsAt_readOn {c : Cursor} {P : Expr → Prop} (hc : Stops l c.rest) (h : P e) :
    YieldsAt (fun n => readOn l n e) c c.rest P := by
  obtain ⟨_, rfl, hread⟩ := settles_readOn hc
  exact yieldsAt_of_done h hread

lemma Passes.covers (h : Passes l e) : Covers l e := by
  intro ts rest c hs hrest hc
  obtain ⟨e', j, he', h⟩ := h ts rest c hs hrest.tighter hc
  exact h _ (yieldsAt_readOn hrest he')

lemma Covers.passes (hl : l.readsOn) (h : Covers l.tighter e) : Passes l e := by
  intro ts rest c hs hrest hc
  obtain ⟨e', j, he', h⟩ := (h ts rest c hs hrest hc).exists_done
  refine ⟨e', j, he', fun S hS => settles_succ ?_⟩
  simp only [expr_readsOn hl]
  exact settles_of_eventually h hS

end

/-! ### Arguments -/

lemma yieldsAt_argumentList {es : List Expr} (hne : es ≠ [])
    (hes : ∀ e ∈ es, Covers .assignment e) {found : List Expr}
    (hlen : found.length + es.length ≤ maxArguments) {ts rest : List Token} {c : Cursor}
    (hs : Spells (Expr.yieldEach es) ts) (hrest : Stops .comma rest) (hc : c.rest = ts ++ rest) :
    YieldsAt (fun n => argumentList n found) c rest
      fun es' => Expr.unnumberedEach es' = Expr.unnumberedEach (found.reverse ++ es) := by
  induction es generalizing found ts c with
  | nil => exact absurd rfl hne
  | cons e es ih =>
    refine settles_succ ?_
    simp only [argumentList]
    have hfound : found.length < maxArguments := by
      rw [List.length_cons] at hlen
      omega
    refine settles_of_done (a := c.front) rfl (settles_require_bind (by simpa using hfound) ?_)
    cases es with
    | nil =>
      refine settles_bind (hes e (by simp) ts rest c hs hrest.tighter hc) fun e' j he' => ?_
      refine settles_not_accept_bind (hrest.head fun k hk => ?_) (yieldsAt_pure ?_ rfl)
      · exact ⟨.comma, by rw [kind_of_isSymbol hk]; rfl, le_rfl⟩
      · simp [Expr.unnumberedEach_append, Expr.unnumberedEach, he']
    | cons b es =>
      rw [Expr.yieldEach, spells_append] at hs
      obtain ⟨us, vs, hus, hvs, rfl⟩ := hs
      obtain ⟨comma, ws, hcomma, hws, rfl⟩ := spells_cons.mp hvs
      replace hcomma : comma.kind = .symbol .comma := hcomma
      have hstops : Stops .assignment (comma :: ws ++ rest) :=
        stops_of_continues (by rw [hcomma]; rfl) (by decide)
      refine settles_bind (hes e (by simp) us _ c hus hstops (by simp [hc])) fun e' j he' => ?_
      refine settles_accept_bind rfl (by simp [hcomma, Kind.isSymbol]) ?_
      refine (ih (by simp) (fun a ha => hes a (List.mem_cons_of_mem _ ha)) ?_ hws rfl).mono ?_
      · simp at hlen ⊢; omega
      · intro es' hes'
        rw [hes']
        simp [Expr.unnumberedEach_append, Expr.unnumberedEach, he']

/-! ### From level to level -/

lemma Covers.loosen_one {l : Level} {e : Expr} (h : At l.tighter e) (hcov : Covers l.tighter e) :
    Covers l e := by
  intro ts rest c hs hrest hc
  by_cases hl : l.readsOn
  · exact (hcov.passes hl).covers ts rest c hs hrest hc
  -- the other levels look for one sign of their own, and do not find it
  have hcov := hcov ts rest c hs hrest.tighter hc
  cases l with
  | assignment =>
    refine settles_succ ?_
    simp only [expr]
    refine settles_bind hcov fun e' j he' => ?_
    refine settles_not_accept_bind (hrest.head fun k hk => ?_) (yieldsAt_pure he' rfl)
    exact ⟨.assignment, by rw [kind_of_isSymbol hk]; rfl, le_rfl⟩
  | conditional =>
    refine settles_succ ?_
    simp only [expr]
    refine settles_bind hcov fun e' j he' => ?_
    refine settles_not_accept_bind (hrest.head fun k hk => ?_) (yieldsAt_pure he' rfl)
    exact ⟨.conditional, by rw [kind_of_isSymbol hk]; rfl, le_rfl⟩
  | unary =>
    obtain ⟨t, us, rfl, hb⟩ := h.begins ts hs
    refine settles_succ ?_
    simp only [expr]
    refine settles_not_accept_bind ?_ hcov
    simpa [hc] using hb.2 (.inl rfl)
  | primary => exact hcov
  | _ => exact absurd rfl hl

lemma At.loosen {l l' : Level} {e : Expr} (hle : l'.height ≤ l.height) (h : At l' e) : At l e := by
  rcases hle.eq_or_lt with heq | hlt
  · exact Level.eq_of_height_eq heq ▸ h
  · exact .tighter hlt h

/-- What is read at a level is read at every looser level. -/
lemma Covers.loosen {l l' : Level} {e : Expr} (hle : l'.height ≤ l.height) (h : At l' e)
    (hcov : Covers l' e) : Covers l e := by
  induction hn : l.height generalizing l with
  | zero =>
    rw [← Level.eq_of_height_eq (by omega : l'.height = l.height)]
    exact hcov
  | succ n ih =>
    rcases hle.eq_or_lt with heq | hlt
    · exact Level.eq_of_height_eq heq ▸ hcov
    · have htighter := l.height_tighter
      have hle' : l'.height ≤ l.tighter.height := by omega
      exact (ih hle' (by omega)).loosen_one (h.loosen hle')

lemma covers_reference {id : NodeId} {name : Token} (hname : name.kind = .identifier) :
    Covers .primary (.reference id name) := by
  intro ts rest c hs hrest hc
  obtain ⟨_, rfl, rfl⟩ := spells_singleton.mp hs
  refine settles_succ (settles_succ ?_)
  simp only [expr, primary]
  refine settles_peek_bind hc ?_
  simp only [hname]
  exact settles_advance_bind hc (settles_freshId_bind (yieldsAt_pure rfl rfl))

lemma passes_property {object : Expr} {name : Token} (hname : name.kind = .identifier)
    (h : Passes .call object) : Passes .call (.property object name) := by
  intro ts rest c hs hrest hc
  rw [Expr.yield, spells_append] at hs
  obtain ⟨us, vs, hus, hvs, rfl⟩ := hs
  obtain ⟨dot, ws, hdot, hws, rfl⟩ := spells_cons.mp hvs
  obtain ⟨name, rfl, rfl⟩ := spells_singleton.mp hws
  replace hdot : dot.kind = .symbol .dot := hdot
  have hstops : Stops .primary (dot :: name :: rest) :=
    stops_of_continues (by rw [hdot]; rfl) (by decide)
  obtain ⟨object', i, hobject, hpass⟩ := h us _ c hus hstops (by simp [hc])
  refine ⟨.property object' name, i, by simp [Expr.unnumbered, hobject], fun S hS => ?_⟩
  refine hpass S (settles_succ ?_)
  simp only [readOn_call, suffixes] at hS ⊢
  refine settles_peek_bind rfl ?_
  simp only [hdot]
  exact settles_advance_bind rfl (settles_expect_bind rfl (by rw [hname]; rfl) hS)

lemma begins_of_yieldEach {e : Expr} {es : List Expr} (h : At .assignment e) {ts : List Token}
    (hs : Spells (Expr.yieldEach (e :: es)) ts) : ∃ t us, ts = t :: us ∧ begins t.kind := by
  cases es with
  | nil =>
    obtain ⟨t, us, rfl, hb⟩ := h.begins ts hs
    exact ⟨t, us, rfl, hb.1⟩
  | cons a es =>
    rw [Expr.yieldEach, spells_append] at hs
    obtain ⟨us, vs, hus, -, rfl⟩ := hs
    obtain ⟨t, us, rfl, hb⟩ := h.begins us hus
    exact ⟨t, us ++ vs, rfl, hb.1⟩

/-- The arguments of a call, which may be missing, up to the closing parenthesis. -/
lemma yieldsAt_arguments {paren : Token} (hparen : paren.kind = .symbol .rightParen)
    {es : List Expr} (hlevel : ∀ e ∈ es, At .assignment e) (hes : ∀ e ∈ es, Covers .assignment e)
    (hlen : es.length ≤ maxArguments) {ts rest : List Token} {c : Cursor}
    (hs : Spells (Expr.yieldEach es) ts) (hc : c.rest = ts ++ paren :: rest) :
    YieldsAt (fun n => unlessSees .rightParen [] (argumentList n [])) c (paren :: rest)
      fun es' => Expr.unnumberedEach es' = Expr.unnumberedEach es := by
  cases es with
  | nil =>
    obtain rfl : ts = [] := spells_nil.mp hs
    rw [List.nil_append] at hc
    rw [← hc]
    exact yieldsAt_unlessSees hc hparen rfl
  | cons e es =>
    obtain ⟨t, us, rfl, hb⟩ := begins_of_yieldEach (hlevel e (by simp)) hs
    have hstops : Stops .comma (paren :: rest) := stops_of_not_continues (by rw [hparen]; rfl)
    refine settles_not_unlessSees hc (isSymbol_eq_false hb rfl) ?_
    exact yieldsAt_argumentList (by simp) hes (by simpa using hlen) hs hstops hc

lemma passes_call {callee : Expr} {paren : Token} {arguments : List Expr}
    (hparen : paren.kind = .symbol .rightParen) (h : Passes .call callee)
    (hlevel : ∀ e ∈ arguments, At .assignment e) (hes : ∀ e ∈ arguments, Covers .assignment e)
    (hlen : arguments.length ≤ maxArguments) : Passes .call (.call callee paren arguments) := by
  intro ts rest c hs hrest hc
  rw [Expr.yield, spells_append] at hs
  obtain ⟨us, vs, hus, hvs, rfl⟩ := hs
  obtain ⟨opening, ws, hopening, hws, rfl⟩ := spells_cons.mp hvs
  obtain ⟨xs, ys, hxs, hys, rfl⟩ := spells_append.mp hws
  obtain ⟨paren, rfl, rfl⟩ := spells_singleton.mp hys
  replace hopening : opening.kind = .symbol .leftParen := hopening
  have hstops : Stops .primary (opening :: (xs ++ paren :: rest)) :=
    stops_of_continues (by rw [hopening]; rfl) (by decide)
  -- the callee is read, and then the parenthesis goes on with its text
  obtain ⟨callee', i, hcallee, hpass⟩ := h us _ c hus hstops (by simp [hc])
  have hargs := yieldsAt_arguments hparen hlevel hes hlen hxs
    (c := { c with rest := xs ++ paren :: rest, nextId := i }) rfl
  obtain ⟨arguments', j, harguments, hargs⟩ := hargs.exists_done
  refine ⟨.call callee' paren arguments', j, by simp [Expr.unnumbered, hcallee, harguments], ?_⟩
  intro S hS
  refine hpass S (settles_succ ?_)
  simp only [readOn_call, suffixes] at hS ⊢
  refine settles_peek_bind rfl ?_
  simp only [hopening]
  refine settles_advance_bind rfl (settles_of_eventually hargs ?_)
  exact settles_expect_bind rfl (by rw [hparen]; rfl) hS

/-- What can be assigned to, an equals sign and a value are read as the assignment. -/
lemma covers_assignment {target value e : Expr} (htarget : Covers .conditional target)
    (hvalue : Covers .assignment value)
    (hyield : e.yield = target.yield ++ .symbol .equal :: value.yield)
    (hassign : ∀ target' equals value' c, target'.unnumbered = target.unnumbered →
      value'.unnumbered = value.unnumbered →
        YieldsAt (fun _ => assignTo target' equals value') c c.rest (·.unnumbered = e.unnumbered)) :
    Covers .assignment e := by
  intro ts rest c hs hrest hc
  rw [hyield, spells_append] at hs
  obtain ⟨us, vs, hus, hvs, rfl⟩ := hs
  obtain ⟨equals, ws, hequals, hws, rfl⟩ := spells_cons.mp hvs
  replace hequals : equals.kind = .symbol .equal := hequals
  have hstops : Stops .conditional (equals :: (ws ++ rest)) :=
    stops_of_continues (by rw [hequals]; rfl) (by decide)
  refine settles_succ ?_
  simp only [expr]
  refine settles_bind (htarget us _ c hus hstops (by simp [hc])) fun target' i ht => ?_
  refine settles_accept_bind rfl (by rw [hequals]; rfl) ?_
  refine settles_bind (hvalue ws rest _ hws hrest rfl) fun value' j hv => ?_
  exact hassign target' equals value' _ ht hv

lemma covers_assign {id : NodeId} {name : Token} {value : Expr} (hname : name.kind = .identifier)
    (hvalue : Covers .assignment value) : Covers .assignment (.assign id name value) := by
  have htarget : Covers .conditional (.reference id name) :=
    (covers_reference hname).loosen (by decide) (.reference hname)
  refine covers_assignment htarget hvalue rfl fun target' equals value' c ht hv => ?_
  cases target' <;> simp only [Expr.unnumbered, Expr.reference.injEq, reduceCtorEq] at ht
  obtain ⟨-, rfl⟩ := ht
  exact settles_freshId_bind (yieldsAt_pure (by simp [Expr.unnumbered, hv]) rfl)

lemma covers_setProperty {object value : Expr} {name : Token} (hobject : At .call object)
    (hpasses : Passes .call object) (hname : name.kind = .identifier)
    (hvalue : Covers .assignment value) : Covers .assignment (.setProperty object name value) := by
  have htarget : Covers .conditional (.property object name) :=
    (passes_property hname hpasses).covers.loosen (by decide) (.property hobject hname)
  refine covers_assignment htarget hvalue (by simp [Expr.yield]) ?_
  intro target' equals value' c ht hv
  cases target' <;> simp only [Expr.unnumbered, Expr.property.injEq, reduceCtorEq] at ht
  obtain ⟨ho, rfl⟩ := ht
  exact yieldsAt_pure (by simp [Expr.unnumbered, ho, hv]) rfl

lemma covers_conditional {condition whenTrue whenFalse : Expr} (hc : Covers .or condition)
    (ht : Covers .comma whenTrue) (he : Covers .conditional whenFalse) :
    Covers .conditional (.conditional condition whenTrue whenFalse) := by
  intro ts rest c hs hrest hcrest
  simp only [Expr.yield, spells_append, spells_cons] at hs
  obtain ⟨us, _, hus, ⟨question, _, hquestion, ⟨vs, _, hvs, ⟨colon, ws, hcolon, hws, rfl⟩, rfl⟩,
    rfl⟩, rfl⟩ := hs
  replace hquestion : question.kind = .symbol .question := hquestion
  replace hcolon : colon.kind = .symbol .colon := hcolon
  have hstops : Stops .or (question :: (vs ++ colon :: (ws ++ rest))) :=
    stops_of_continues (by rw [hquestion]; rfl) (by decide)
  have hstops' : Stops .comma (colon :: (ws ++ rest)) :=
    stops_of_not_continues (by rw [hcolon]; rfl)
  refine settles_succ ?_
  simp only [expr]
  refine settles_bind (hc us _ c hus hstops (by simp [hcrest])) fun c' i hc' => ?_
  refine settles_accept_bind rfl (by rw [hquestion]; rfl) ?_
  refine settles_bind (ht vs _ _ hvs hstops' rfl) fun t' j ht' => ?_
  refine settles_expect_bind rfl (by rw [hcolon]; rfl) ?_
  refine settles_bind (he ws rest _ hws hrest rfl) fun e' k he' => ?_
  exact yieldsAt_pure (by simp [Expr.unnumbered, hc', ht', he']) rfl

lemma covers_unary {op : Token} {operand : Expr} (hop : isUnary op.kind)
    (h : Covers .unary operand) : Covers .unary (.unary op operand) := by
  intro ts rest c hs hrest hc
  obtain ⟨op, us, rfl, hus, rfl⟩ := spells_cons.mp hs
  refine settles_succ ?_
  simp only [expr]
  refine settles_accept_bind hc hop ?_
  refine settles_bind (h us rest _ hus hrest rfl) fun e' j he' => ?_
  exact yieldsAt_pure (by simp [Expr.unnumbered, he']) rfl

lemma covers_group {inner : Expr} (h : Covers .comma inner) : Covers .primary (.group inner) := by
  intro ts rest c hs hrest hc
  simp only [Expr.yield, spells_append, spells_cons, spells_nil] at hs
  obtain ⟨opening, _, hopening, ⟨us, _, hus, ⟨closing, _, hclosing, rfl, rfl⟩, rfl⟩, rfl⟩ := hs
  replace hopening : opening.kind = .symbol .leftParen := hopening
  replace hclosing : closing.kind = .symbol .rightParen := hclosing
  have hstops : Stops .comma (closing :: rest) := stops_of_not_continues (by rw [hclosing]; rfl)
  refine settles_succ (settles_succ ?_)
  simp only [expr, primary]
  refine settles_peek_bind hc ?_
  simp only [hopening]
  refine settles_advance_bind hc ?_
  refine settles_bind (h us _ _ hus hstops (by simp)) fun e' j he' => ?_
  refine settles_expect_bind rfl (by rw [hclosing]; rfl) ?_
  exact yieldsAt_pure (by simp [Expr.unnumbered, he']) rfl

lemma covers_literal {x : Literal} : Covers .primary (.literal x) := by
  intro ts rest c hs hrest hc
  obtain ⟨t, ht, rfl⟩ := spells_singleton.mp hs
  replace ht : t.kind = x.kind := ht
  refine settles_succ (settles_succ ?_)
  simp only [expr, primary]
  refine settles_peek_bind hc ?_
  rcases x with x | s | (_ | _) | _
  all_goals
    simp only [ht, Literal.kind]
    exact settles_advance_bind hc (yieldsAt_pure rfl rfl)

lemma covers_this {id : NodeId} {keyword : Token} (hkeyword : keyword.kind = .keyword .kwThis) :
    Covers .primary (.this id keyword) := by
  intro ts rest c hs hrest hc
  obtain ⟨_, rfl, rfl⟩ := spells_singleton.mp hs
  refine settles_succ (settles_succ ?_)
  simp only [expr, primary]
  refine settles_peek_bind hc ?_
  simp only [hkeyword]
  exact settles_advance_bind hc (settles_freshId_bind (yieldsAt_pure rfl rfl))

lemma passes_link {l : Level} {left right : Expr} {op : Token} (hop : l.chains op.kind)
    (hleft : Passes l left) (hright : Covers l.tighter right) :
    Passes l (l.link left op right) := by
  intro ts rest c hs hrest hc
  rw [yield_link, spells_append] at hs
  obtain ⟨us, vs, hus, hvs, rfl⟩ := hs
  obtain ⟨op, ws, rfl, hws, rfl⟩ := spells_cons.mp hvs
  have hstops : Stops l.tighter (op :: (ws ++ rest)) :=
    stops_of_continues (continues?_of_chains hop) (height_tighter_lt_of_chains hop)
  obtain ⟨left', i, hleft, hpass⟩ := hleft us _ c hus hstops (by simp [hc])
  obtain ⟨right', j, hright, hcov⟩ :=
    (hright ws rest { c with rest := ws ++ rest, nextId := i } hws hrest rfl).exists_done
  refine ⟨l.link left' op right', j, by simp [unnumbered_link, hleft, hright], ?_⟩
  intro S hS
  refine hpass S (settles_succ ?_)
  simp only [readOn_of_ne_call (readsOn_of_chains hop).2, chain] at hS ⊢
  exact settles_accept_bind rfl hop (settles_of_eventually hcov hS)

/-! ### All expressions -/

/-- Every level reads the expressions that stand at it, unless some argument list is too long. -/
lemma At.covers {l : Level} {e : Expr} (h : At l e) (hw : e.widest ≤ maxArguments) :
    Covers l e ∧ (l.readsOn → Passes l e) := by
  induction h with
  | @tighter l l' e hlt h ih =>
    have hle : l'.height ≤ l.tighter.height := by rw [Level.height_tighter]; omega
    refine ⟨(ih hw).1.loosen hlt.le h, fun hl => ?_⟩
    exact ((ih hw).1.loosen hle h).passes hl
  | @binary l l' left op right hop _ hlt h ihl ihr =>
    rw [Expr.widest, max_le_iff] at hw
    obtain ⟨hchains, hlink⟩ := chains_of_binaryLevel? hop
    have hle : l'.height ≤ l.tighter.height := by rw [Level.height_tighter]; omega
    have hpass := passes_link hchains ((ihl hw.1).2 (readsOn_of_chains hchains).1)
      ((ihr hw.2).1.loosen hle h)
    rw [hlink] at hpass
    exact ⟨hpass.covers, fun _ => hpass⟩
  | @logical l l' left op right hop _ hlt h ihl ihr =>
    rw [Expr.widest, max_le_iff] at hw
    obtain ⟨hchains, hlink⟩ := chains_of_logicalLevel? hop
    have hle : l'.height ≤ l.tighter.height := by rw [Level.height_tighter]; omega
    have hpass := passes_link hchains ((ihl hw.1).2 (readsOn_of_chains hchains).1)
      ((ihr hw.2).1.loosen hle h)
    rw [hlink] at hpass
    exact ⟨hpass.covers, fun _ => hpass⟩
  | assign hname _ ih =>
    exact ⟨covers_assign hname (ih hw).1, fun h => absurd h (by decide)⟩
  | setProperty hobject hname _ iho ihv =>
    rw [Expr.widest, max_le_iff] at hw
    refine ⟨?_, fun h => absurd h (by decide)⟩
    exact covers_setProperty hobject ((iho hw.1).2 rfl) hname (ihv hw.2).1
  | conditional _ _ _ ihc iht ihe =>
    rw [Expr.widest, max_le_iff, max_le_iff] at hw
    refine ⟨?_, fun h => absurd h (by decide)⟩
    exact covers_conditional (ihc hw.1).1 (iht hw.2.1).1 (ihe hw.2.2).1
  | unary hop _ ih =>
    exact ⟨covers_unary (isUnary_iff.mpr hop) (ih hw).1, fun h => absurd h (by decide)⟩
  | call _ hparen hlevel ih ihs =>
    rw [Expr.widest, max_le_iff, max_le_iff] at hw
    have hes : ∀ e ∈ _, Covers .assignment e := fun e he =>
      (ihs e he ((Expr.widest_le_widestOf he).trans hw.2.2)).1
    have h := passes_call hparen ((ih hw.1).2 rfl) hlevel hes hw.2.1
    exact ⟨h.covers, fun _ => h⟩
  | property _ hname ih =>
    have h := passes_property hname ((ih hw).2 rfl)
    exact ⟨h.covers, fun _ => h⟩
  | group _ ih => exact ⟨covers_group (ih hw).1, fun h => absurd h (by decide)⟩
  | literal => exact ⟨covers_literal, fun h => absurd h (by decide)⟩
  | reference hname => exact ⟨covers_reference hname, fun h => absurd h (by decide)⟩
  | this hword => exact ⟨covers_this hword, fun h => absurd h (by decide)⟩

end Lox.Grammar
