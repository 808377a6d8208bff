import Lox.Proofs.Grammar.Derivation
import Lox.Proofs.Grammar.ExpressionSettling

/-!
Expressions that go on.

A text that starts with a minus or a parenthesis may be read by itself, and after an expression as
more of it. The minus then subtracts, and the parentheses hold the arguments of a call. What comes
after finds its place among the levels that are still open.
-/

namespace Lox.Grammar

/-- After every expression of the level `l` the tokens go on with it, to one of the level `l'`. The
number bounds the argument lists in them. -/
def AbsorbsTo (l l' : Level) (w : ℕ) (us : List Token) : Prop :=
  ∀ e ts, At l e → Spells e.yield ts →
    ∃ e', At l' e' ∧ Spells e'.yield (ts ++ us) ∧ e'.widest ≤ max e.widest w

/-- The tokens go on with every expression of the level. -/
abbrev Absorbs (l : Level) (w : ℕ) (us : List Token) : Prop := AbsorbsTo l l w us

/-- The expression goes on with the tokens, to one of every level that is loose enough for both. -/
def GoesOn (l' l₁ : Level) (w : ℕ) (us : List Token) (e : Expr) : Prop :=
  ∀ ts, Spells e.yield ts → ∃ e',
    (∀ k : Level, l'.height ≤ k.height → l₁.height ≤ k.height → At k e') ∧
      Spells e'.yield (ts ++ us) ∧ e'.widest ≤ max e.widest w

section
variable {l l' l₁ l₂ : Level} {e left right last : Expr} {op : Token} {us vs ts : List Token}
  {w : ℕ}

/-- Where the last part of an expression goes on, the expression does. -/
lemma GoesOn.within (h : GoesOn l' l₂ w us last) (node : Expr → Expr) (front : List Mark) (v : ℕ)
    (hyield : ∀ x, (node x).yield = front ++ x.yield)
    (hwidest : ∀ x, (node x).widest = max v x.widest)
    (hnode : ∀ x, (∀ k : Level, l'.height ≤ k.height → l₂.height ≤ k.height → At k x) →
      At l₁ (node x)) :
    GoesOn l' l₁ w us (node last) := by
  intro ts hs
  rw [hyield, spells_append] at hs
  obtain ⟨xs, ys, hxs, hys, rfl⟩ := hs
  obtain ⟨last', hlevel, hs', hw'⟩ := h ys hys
  refine ⟨node last', fun k _ hk => (hnode last' hlevel).loosen hk, ?_, ?_⟩
  · rw [hyield, List.append_assoc]
    exact hxs.append hs'
  · rw [hwidest, hwidest]
    omega

/-- If the expressions of a level go on, then so do looser ones, in their last parts. -/
lemma AbsorbsTo.goesOn (h : AbsorbsTo l l' w us) (hcall : Level.call.height ≤ l.height)
    (hbetween : ∀ k : Level, l.height < k.height →
      l'.height < k.height ∨ k = .conditional ∧ l' = .conditional)
    (he : At l₁ e) : GoesOn l' l₁ w us e := by
  have base {l₁ : Level} {e : Expr} (hle : l₁.height ≤ l.height) (he : At l₁ e) :
      GoesOn l' l₁ w us e := by
    intro ts hs
    obtain ⟨e', he', hs', hw'⟩ := h e ts (he.loosen hle) hs
    exact ⟨e', fun k hk _ => he'.loosen hk, hs', hw'⟩
  -- the last operand of a chain stays tighter than the chain
  have operand {k l₂ : Level} {e : Expr} (hlt : l₂.height < k.height) (hk : l'.height < k.height)
      (he : ∀ k : Level, l'.height ≤ k.height → l₂.height ≤ k.height → At k e) :
      ∃ l₃ : Level, l₃.height < k.height ∧ At l₃ e := by
    rcases le_total l'.height l₂.height with hle | hle
    · exact ⟨l₂, hlt, he l₂ hle le_rfl⟩
    · exact ⟨l', hk, he l' le_rfl hle⟩
  -- the nodes that end with a part of their own level
  have loose {k : Level} {e : Expr} (hgt : l.height < k.height)
      (he : ∀ k₁ : Level, l'.height ≤ k₁.height → k.height ≤ k₁.height → At k₁ e) : At k e := by
    rcases hbetween k hgt with hlt | ⟨rfl, rfl⟩
    · exact he k hlt.le le_rfl
    · exact he _ le_rfl le_rfl
  induction he with
  | tighter hlt _ ih =>
    intro ts hs
    obtain ⟨e', he', hs', hw'⟩ := ih ts hs
    exact ⟨e', fun k hk hk' => he' k hk (hlt.le.trans hk'), hs', hw'⟩
  | @binary l₁ l₂ left op right hop hleft hlt hright _ ih =>
    rcases le_or_gt l₁.height l.height with hle | hgt
    · exact base hle (.binary hop hleft hlt hright)
    refine ih.within (.binary left op ·) (left.yield ++ [.token op]) left.widest
      (fun x => by simp [Expr.yield]) (fun x => rfl) fun x hx => ?_
    rcases hbetween l₁ hgt with hgt' | ⟨rfl, -⟩
    · obtain ⟨l₃, hl₃, hx⟩ := operand hlt hgt' hx
      exact .binary hop hleft hl₃ hx
    · obtain ⟨hcomma, -⟩ | htight := height_of_binaryLevel? hop
      · cases hcomma
      · exact absurd htight (by decide)
  | @logical l₁ l₂ left op right hop hleft hlt hright _ ih =>
    rcases le_or_gt l₁.height l.height with hle | hgt
    · exact base hle (.logical hop hleft hlt hright)
    refine ih.within (.logical left op ·) (left.yield ++ [.token op]) left.widest
      (fun x => by simp [Expr.yield]) (fun x => rfl) fun x hx => ?_
    rcases hbetween l₁ hgt with hgt' | ⟨rfl, -⟩
    · obtain ⟨l₃, hl₃, hx⟩ := operand hlt hgt' hx
      exact .logical hop hleft hl₃ hx
    · exact absurd (height_of_logicalLevel? hop).2 (by decide)
  | @assign id name value hname hvalue ih =>
    rcases le_or_gt Level.assignment.height l.height with hle | hgt
    · exact base hle (.assign hname hvalue)
    exact ih.within (.assign id name ·) [.token name, .symbol .equal] 0
      (fun x => rfl) (fun x => (Nat.zero_max _).symm) fun x hx => .assign hname (loose hgt hx)
  | @setProperty object name value hobject hname hvalue _ ih =>
    rcases le_or_gt Level.assignment.height l.height with hle | hgt
    · exact base hle (.setProperty hobject hname hvalue)
    exact ih.within (.setProperty object name ·)
      (object.yield ++ [.symbol .dot, .token name, .symbol .equal]) object.widest
      (fun x => by simp [Expr.yield]) (fun x => rfl)
      fun x hx => .setProperty hobject hname (loose hgt hx)
  | @conditional c t e hc ht he _ _ ih =>
    rcases le_or_gt Level.conditional.height l.height with hle | hgt
    · exact base hle (.conditional hc ht he)
    exact ih.within (.conditional c t ·)
      (c.yield ++ .symbol .question :: (t.yield ++ [.symbol .colon])) (max c.widest t.widest)
      (fun x => by simp [Expr.yield]) (fun x => (max_assoc _ _ _).symm)
      fun x hx => .conditional hc ht (loose hgt hx)
  | @unary op operand hop hoperand ih =>
    rcases le_or_gt Level.unary.height l.height with hle | hgt
    · exact base hle (.unary hop hoperand)
    exact ih.within (.unary op ·) [.token op] 0
      (fun x => rfl) (fun x => (Nat.zero_max _).symm) fun x hx => .unary hop (loose hgt hx)
  | call hcallee hparen hargs => exact base hcall (.call hcallee hparen hargs)
  | property hobject hname => exact base hcall (.property hobject hname)
  | group hinner => exact base (Nat.zero_le _) (.group hinner)
  | literal => exact base (Nat.zero_le _) .literal
  | reference hname => exact base (Nat.zero_le _) (.reference hname)
  | this hkeyword => exact base (Nat.zero_le _) (.this hkeyword)

lemma Absorbs.loosen (h : Absorbs l w us) (hcall : Level.call.height ≤ l.height)
    (hle : l.height ≤ l'.height) : Absorbs l' w us := by
  intro e ts he hs
  obtain ⟨e', he', hs', hw'⟩ := h.goesOn hcall (fun k hk => .inl hk) he ts hs
  exact ⟨e', he' l' hle le_rfl, hs', hw'⟩

lemma absorbs_nil (l : Level) : Absorbs l 0 [] :=
  fun e ts he hs => ⟨e, he, by simpa using hs, le_max_left ..⟩

lemma Absorbs.mono {w' : ℕ} (h : Absorbs l w us) (hw : w ≤ w') : Absorbs l w' us := by
  intro e ts he hs
  obtain ⟨e', he', hs', hw'⟩ := h e ts he hs
  exact ⟨e', he', hs', hw'.trans (max_le_max_left _ hw)⟩

lemma Absorbs.property {dot name : Token} (h : Absorbs .call w us)
    (hdot : dot.kind = .symbol .dot) (hname : name.kind = .identifier) :
    Absorbs .call w (us ++ [dot, name]) := by
  intro e ts he hts
  obtain ⟨e', he', hs', hw'⟩ := h e ts he hts
  refine ⟨.property e' name, .property he' hname, ?_, hw'⟩
  rw [Expr.yield, ← List.append_assoc]
  exact hs'.append (.symbol hdot (.token name .nil))

lemma Absorbs.call {opening paren : Token} {arguments : List Expr} (h : Absorbs .call w us)
    (hopening : opening.kind = .symbol .leftParen) (hparen : paren.kind = .symbol .rightParen)
    (harguments : ∀ a ∈ arguments, At .assignment a)
    (hs : Spells (Expr.yieldEach arguments) vs) :
    Absorbs .call (max w (max arguments.length (Expr.widestOf arguments)))
      (us ++ opening :: (vs ++ [paren])) := by
  intro e ts he hts
  obtain ⟨e', he', hs', hw'⟩ := h e ts he hts
  refine ⟨.call e' paren arguments, .call he' hparen harguments, ?_, ?_⟩
  · rw [Expr.yield, ← List.append_assoc]
    exact hs'.append (.symbol hopening (hs.append (.token paren .nil)))
  · rw [Expr.widest]
    omega

/-! ### From left to right -/

/-- A text that starts with an expression starts with the first token of that. -/
lemma exists_front {t : Token} {marks : List Mark} (hleft : At l left)
    (hs : Spells (left.yield ++ marks) (t :: us)) :
    ∃ xs ys, us = xs ++ ys ∧ Spells left.yield (t :: xs) ∧ Spells marks ys := by
  obtain ⟨_, ys, hxs, hys, hus⟩ := spells_append.mp hs
  obtain ⟨u, xs, rfl, -⟩ := hleft.begins _ hxs
  obtain ⟨rfl, rfl⟩ := List.cons.inj hus
  exact ⟨xs, ys, rfl, hxs, hys⟩

/-- Where the left side of a chain goes on with what is in front, the chain does. -/
lemma Absorbs.of_link {t op : Token} (hop : l.chains op.kind) (hleft : At l left)
    (hright : At l.tighter right)
    (h : ∀ xs, xs <+: us → Spells left.yield (t :: xs) → Absorbs l w (t :: xs))
    (hs : Spells (left.yield ++ .token op :: right.yield) (t :: us)) :
    Absorbs l (max w right.widest) (t :: us) := by
  obtain ⟨xs, _, rfl, hxs, hrest⟩ := exists_front hleft hs
  obtain ⟨op, ys, rfl, hys, rfl⟩ := spells_cons.mp hrest
  intro e ts he hts
  obtain ⟨e', he', hs', hw'⟩ := h xs (List.prefix_append ..) hxs e ts he hts
  refine ⟨l.link e' op right, .link hop he' hright, ?_, ?_⟩
  · rw [yield_link, ← List.cons_append, ← List.append_assoc]
    exact hs'.append (hys.token op)
  · rw [widest_link]
    omega

/-- Where the condition goes on with what is in front, the conditional does. -/
lemma Absorbs.of_conditional {t : Token} {c whenTrue whenFalse : Expr} (hc : At .or c)
    (htrue : At .comma whenTrue) (hfalse : At .conditional whenFalse)
    (h : ∀ xs, xs <+: us → Spells c.yield (t :: xs) → Absorbs .or w (t :: xs))
    (hs : Spells (Expr.conditional c whenTrue whenFalse).yield (t :: us)) :
    Absorbs .conditional (max w (max whenTrue.widest whenFalse.widest)) (t :: us) := by
  obtain ⟨xs, ys, rfl, hxs, hys⟩ := exists_front hc hs
  have hor : AbsorbsTo .or .conditional (max w (max whenTrue.widest whenFalse.widest))
      (t :: (xs ++ ys)) := by
    intro e ts he hts
    obtain ⟨e', he', hs', hw'⟩ := h xs (List.prefix_append ..) hxs e ts he hts
    refine ⟨.conditional e' whenTrue whenFalse, .conditional he' htrue hfalse, ?_, ?_⟩
    · simpa [Expr.yield] using hs'.append hys
    · rw [Expr.widest]
      omega
  intro e ts he hts
  have hbetween (k : Level) (hk : Level.or.height < k.height) :
      Level.conditional.height < k.height ∨ k = .conditional ∧ Level.conditional = .conditional := by
    cases k <;> simp [Level.height] at hk ⊢
  obtain ⟨e', he', hs', hw'⟩ := hor.goesOn (by decide) hbetween he ts hts
  exact ⟨e', he' _ le_rfl le_rfl, hs', hw'⟩

/-! ### After a minus -/

/-- Nothing that is as tight as a call starts with a minus. -/
lemma At.not_minus (h : At l e) (hl : l = .call ∨ l = .primary) (hs : Spells e.yield (op :: us)) :
    op.kind ≠ .symbol .minus := by
  intro hop
  obtain ⟨_, _, hcons, -, hunary⟩ := h.begins _ hs
  obtain ⟨rfl, -⟩ := List.cons.inj hcons
  exact hunary hl (isUnary_iff.mpr (.inr hop))

/-- Without the minus in front, what is left of a factor is a factor. -/
lemma At.exists_operand (h : At l e) (hl : l.height ≤ Level.factor.height)
    (hop : op.kind = .symbol .minus) (hs : Spells e.yield (op :: us)) :
    ∃ e', At .factor e' ∧ Spells e'.yield us ∧ e'.widest ≤ e.widest := by
  induction h generalizing us with
  | tighter hlt _ ih => exact ih (hlt.le.trans hl) hs
  | @binary l l' left o right ho hleft hlt hright ih _ =>
    obtain ⟨xs, _, rfl, hxs, hys⟩ := exists_front hleft hs
    obtain ⟨left', hleft', hs', hw'⟩ := ih hl hxs
    obtain rfl : l = .factor := by
      unfold binaryLevel? at ho
      split at ho <;> cases ho <;> first | rfl | exact absurd hl (by decide)
    refine ⟨.binary left' o right, .binary ho hleft' hlt hright, hs'.append hys, ?_⟩
    simp only [Expr.widest]
    omega
  | logical ho => exact absurd ((height_of_logicalLevel? ho).1.trans hl) (by decide)
  | unary _ hoperand _ =>
    obtain ⟨_, _, -, hus, hcons⟩ := spells_cons.mp hs
    obtain ⟨-, rfl⟩ := List.cons.inj hcons
    exact ⟨_, hoperand.loosen (by decide), hus, le_rfl⟩
  | assign | setProperty | conditional => exact absurd hl (by decide)
  | call hcallee hparen hargs =>
    exact absurd hop ((At.call hcallee hparen hargs).not_minus (.inl rfl) hs)
  | property hobject hname =>
    exact absurd hop ((At.property hobject hname).not_minus (.inl rfl) hs)
  | group hinner => exact absurd hop ((At.group hinner).not_minus (.inr rfl) hs)
  | literal => exact absurd hop (At.literal.not_minus (.inr rfl) hs)
  | reference hname => exact absurd hop ((At.reference hname).not_minus (.inr rfl) hs)
  | this hkeyword => exact absurd hop ((At.this hkeyword).not_minus (.inr rfl) hs)

/-- What is tighter than a difference and starts with a minus is subtracted. -/
lemma At.absorbs_of_tight (h : At l e) (hl : l.height ≤ Level.factor.height)
    (hop : op.kind = .symbol .minus) (hs : Spells e.yield (op :: us)) :
    Absorbs .term e.widest (op :: us) := by
  obtain ⟨e', he', hs', hw'⟩ := h.exists_operand hl hop hs
  intro x ts hx hts
  refine ⟨.binary x op e', .binary (by rw [hop]; rfl) hx (by decide) he', ?_, ?_⟩
  · exact hts.append (hs'.token op)
  · simp only [Expr.widest]
    omega

/-- An expression that starts with a minus goes on with every expression in front of it. -/
lemma At.absorbs_of_minus (h : At l e) (hop : op.kind = .symbol .minus)
    (hs : Spells e.yield (op :: us)) (hle : l.height ≤ l'.height)
    (hterm : Level.term.height ≤ l'.height) : Absorbs l' e.widest (op :: us) := by
  -- a chain is tight, or else its left side goes on
  have chained {l l₁ : Level} {left right : Expr} {o : Token} {us : List Token}
      (ho : l.chains o.kind) (hleft : At l left) (hlt : l₁.height < l.height) (hright : At l₁ right)
      (ih : ∀ {xs}, Spells left.yield (op :: xs) → ∀ {l' : Level}, l.height ≤ l'.height →
        Level.term.height ≤ l'.height → Absorbs l' left.widest (op :: xs))
      (hs : Spells (left.yield ++ .token o :: right.yield) (op :: us))
      {l' : Level} (hle : l.height ≤ l'.height) (hterm : Level.term.height ≤ l'.height) :
      Absorbs l' (max left.widest right.widest) (op :: us) := by
    have hright : At l.tighter right :=
      hright.loosen (by rw [Level.height_tighter]; omega)
    rcases le_or_gt l.height Level.factor.height with hl | hl
    · have hlink : Spells (l.link left o right).yield (op :: us) := by rwa [yield_link]
      rw [← widest_link l left o right]
      exact ((At.link ho hleft hright).absorbs_of_tight hl hop hlink).loosen (by decide) hterm
    · exact (Absorbs.of_link ho hleft hright (fun _ _ hxs => ih hxs le_rfl hl) hs).loosen
        (Nat.one_le_of_lt hl) hle
  induction h generalizing us l' with
  | tighter hlt _ ih => exact ih hs (hlt.le.trans hle) hterm
  | binary ho hleft hlt hright ih _ =>
    exact chained (chains_of_binaryLevel? ho).1 hleft hlt hright (fun hs _ => ih hs) hs hle hterm
  | logical ho hleft hlt hright ih _ =>
    exact chained (chains_of_logicalLevel? ho).1 hleft hlt hright (fun hs _ => ih hs) hs hle hterm
  | conditional hc ht he ihc _ _ =>
    exact (Absorbs.of_conditional hc ht he (fun _ _ hxs => ihc hxs le_rfl (by decide)) hs).loosen
      (by decide) hle
  | assign hname _ _ =>
    obtain ⟨_, _, hfits, -, hcons⟩ := spells_cons.mp hs
    obtain ⟨rfl, -⟩ := List.cons.inj hcons
    rw [show op = _ from hfits, hname] at hop
    cases hop
  | setProperty hobject _ _ _ _ =>
    obtain ⟨xs, _, rfl, hxs, -⟩ := exists_front hobject hs
    exact absurd hop (hobject.not_minus (.inl rfl) hxs)
  | unary ho hoperand _ =>
    exact ((At.unary ho hoperand).absorbs_of_tight (by decide) hop hs).loosen (by decide) hterm
  | call hcallee hparen hargs =>
    exact absurd hop ((At.call hcallee hparen hargs).not_minus (.inl rfl) hs)
  | property hobject hname =>
    exact absurd hop ((At.property hobject hname).not_minus (.inl rfl) hs)
  | group hinner => exact absurd hop ((At.group hinner).not_minus (.inr rfl) hs)
  | literal => exact absurd hop (At.literal.not_minus (.inr rfl) hs)
  | reference hname => exact absurd hop ((At.reference hname).not_minus (.inr rfl) hs)
  | this hkeyword => exact absurd hop ((At.this hkeyword).not_minus (.inr rfl) hs)

/-! ### After a parenthesis -/

/-- How many commas there are among the tokens. -/
def commas (ts : List Token) : ℕ := ts.countP (·.kind.isSymbol .comma)

lemma commas_mono (h : us <+: vs) : commas us ≤ commas vs := h.sublist.countP_le

/-- What stands in parentheses may be read as arguments. -/
lemma At.exists_arguments (h : At l e) (hs : Spells e.yield ts) :
    ∃ before a, (∀ x ∈ before ++ [a], At .assignment x) ∧
      Spells (Expr.yieldEach (before ++ [a])) ts ∧ before.length ≤ commas ts ∧
      Expr.widestOf (before ++ [a]) ≤ e.widest := by
  have single {l : Level} {e : Expr} {ts : List Token} (hl : l.height ≤ Level.assignment.height)
      (h : At l e) (hs : Spells e.yield ts) : ∃ before a, (∀ x ∈ before ++ [a], At .assignment x) ∧
        Spells (Expr.yieldEach (before ++ [a])) ts ∧ before.length ≤ commas ts ∧
        Expr.widestOf (before ++ [a]) ≤ e.widest :=
    ⟨[], e, by simpa using h.loosen hl, by simpa [Expr.yieldEach] using hs, Nat.zero_le _,
      by simp [Expr.widestOf]⟩
  induction h generalizing ts with
  | tighter _ _ ih => exact ih hs
  | @binary l l' left op right hop hleft hlt hright ih _ =>
    rcases le_or_gt l.height Level.assignment.height with hl | hl
    · exact single hl (.binary hop hleft hlt hright) hs
    obtain ⟨xs, _, hxs, hrest, rfl⟩ := spells_append.mp hs
    obtain ⟨op, ys, rfl, hys, rfl⟩ := spells_cons.mp hrest
    obtain ⟨before, a, hlevel, hs', hlen, hw⟩ := ih hxs
    obtain ⟨rfl, hcomma⟩ : l = .comma ∧ op.kind = .symbol .comma :=
      (height_of_binaryLevel? hop).resolve_right fun htight =>
        absurd (hl.trans htight) (by decide)
    have hright : At .assignment right :=
      hright.loosen (Nat.le_of_lt_succ hlt)
    refine ⟨before ++ [a], right, ?_, ?_, ?_, ?_⟩
    · intro x hx
      rcases List.mem_append.mp hx with hx | hx
      · exact hlevel x hx
      · exact List.mem_singleton.mp hx ▸ hright
    · rw [Expr.yieldEach_append_singleton] at hs' ⊢
      have hfront : Expr.yieldBefore (before ++ [a]) =
          (Expr.yieldBefore before ++ a.yield) ++ [.symbol .comma] := by
        simp [Expr.yieldBefore]
      rw [hfront, List.append_assoc]
      exact hs'.append (.symbol hcomma hys)
    · simp only [commas, List.countP_append, List.countP_cons, hcomma, Kind.isSymbol] at hlen ⊢
      simp
      omega
    · rw [Expr.widestOf_append]
      simp only [Expr.widestOf, Expr.widest]
      omega
  | @logical l l' left op right hop hleft hlt hright _ _ =>
    have hor := (height_of_logicalLevel? hop).2
    exact single (hor.trans (by decide)) (.logical hop hleft hlt hright) hs
  | assign hname hvalue => exact single (by decide) (.assign hname hvalue) hs
  | setProperty hobject hname hvalue =>
    exact single (by decide) (.setProperty hobject hname hvalue) hs
  | conditional hc ht he => exact single (by decide) (.conditional hc ht he) hs
  | unary hop hoperand => exact single (by decide) (.unary hop hoperand) hs
  | call hcallee hparen hargs => exact single (by decide) (.call hcallee hparen hargs) hs
  | property hobject hname => exact single (by decide) (.property hobject hname) hs
  | group hinner => exact single (by decide) (.group hinner) hs
  | literal => exact single (by decide) .literal hs
  | reference hname => exact single (by decide) (.reference hname) hs
  | this hkeyword => exact single (by decide) (.this hkeyword) hs

/-- An expression that starts with a parenthesis goes on with every expression in front of it,
unless it assigns to something. -/
lemma At.absorbs_of_paren {opening : Token} (h : At l e)
    (hopening : opening.kind = .symbol .leftParen) (hs : Spells e.yield (opening :: us))
    (hl : l.height ≤ Level.conditional.height) (hw : e.widest ≤ maxArguments)
    (hcommas : commas us < maxArguments) (hle : l.height ≤ l'.height)
    (hcall : Level.call.height ≤ l'.height) : Absorbs l' maxArguments (opening :: us) := by
  have first {m : Mark} {marks : List Mark} {us : List Token} {p : Prop}
      (hs : Spells (m :: marks) (opening :: us)) (hm : m.kindOf ≠ .symbol .leftParen) : p := by
    obtain ⟨_, _, hfits, -, hcons⟩ := spells_cons.mp hs
    obtain ⟨rfl, -⟩ := List.cons.inj hcons
    exact absurd (hfits.kind_eq.symm.trans hopening) hm
  have chained {l l₁ : Level} {left right : Expr} {o : Token} {us : List Token}
      (ho : l.chains o.kind) (hleft : At l left) (hlt : l₁.height < l.height) (hright : At l₁ right)
      (hw : right.widest ≤ maxArguments)
      (ih : Level.call.height ≤ l.height → ∀ xs, xs <+: us → Spells left.yield (opening :: xs) →
        Absorbs l maxArguments (opening :: xs))
      (hs : Spells (left.yield ++ .token o :: right.yield) (opening :: us))
      {l' : Level} (hle : l.height ≤ l'.height) : Absorbs l' maxArguments (opening :: us) := by
    have hlevel : Level.call.height ≤ l.height :=
      (Nat.succ_le_of_lt (height_tighter_lt_of_chains ho)).trans' (Nat.le_add_left 1 _)
    have hright : At l.tighter right := hright.loosen (by rw [Level.height_tighter]; omega)
    have hlink := Absorbs.of_link ho hleft hright (ih hlevel) hs
    exact (hlink.mono (max_le le_rfl hw)).loosen hlevel hle
  induction h generalizing us l' with
  | tighter hlt _ ih => exact ih hs (hlt.le.trans hl) hw hcommas (hlt.le.trans hle) hcall
  | binary ho hleft hlt hright ih _ =>
    obtain ⟨hwleft, hwright⟩ := max_le_iff.mp hw
    exact chained (chains_of_binaryLevel? ho).1 hleft hlt hright hwright (fun hlevel _ hpre hxs =>
      ih hxs hl hwleft ((commas_mono hpre).trans_lt hcommas) le_rfl hlevel) hs hle
  | logical ho hleft hlt hright ih _ =>
    obtain ⟨hwleft, hwright⟩ := max_le_iff.mp hw
    exact chained (chains_of_logicalLevel? ho).1 hleft hlt hright hwright (fun hlevel _ hpre hxs =>
      ih hxs hl hwleft ((commas_mono hpre).trans_lt hcommas) le_rfl hlevel) hs hle
  | conditional hc ht he ihc _ _ =>
    obtain ⟨hwc, hwrest⟩ := max_le_iff.mp hw
    have hconditional := Absorbs.of_conditional hc ht he (fun xs hpre hxs =>
      ihc hxs (by decide) hwc ((commas_mono hpre).trans_lt hcommas) le_rfl (by decide)) hs
    exact (hconditional.mono (max_le le_rfl hwrest)).loosen (by decide) hle
  | assign | setProperty => exact absurd hl (by decide)
  | unary hop _ _ => exact first hs (by rcases hop with hop | hop <;> simp [Mark.kindOf, hop])
  | @call callee paren arguments hcallee hparen hargs ih _ =>
    obtain ⟨hwcallee, hwargs⟩ := max_le_iff.mp hw
    obtain ⟨xs, _, rfl, hxs, hrest⟩ := exists_front hcallee hs
    obtain ⟨opening', _, hopening', hargs', rfl⟩ := spells_cons.mp hrest
    obtain ⟨ys, _, hys, hparen', rfl⟩ := spells_append.mp hargs'
    obtain ⟨_, rfl, rfl⟩ := spells_singleton.mp hparen'
    have hcallee := ih hxs hl hwcallee
      ((commas_mono (List.prefix_append ..)).trans_lt hcommas) le_rfl le_rfl
    have hcall' := hcallee.call hopening' hparen hargs hys
    exact (hcall'.mono (max_le le_rfl hwargs)).loosen le_rfl hcall
  | @property object name hobject hname ih =>
    obtain ⟨xs, _, rfl, hxs, hrest⟩ := exists_front hobject hs
    obtain ⟨dot, _, hdot, hname', rfl⟩ := spells_cons.mp hrest
    obtain ⟨_, rfl, rfl⟩ := spells_singleton.mp hname'
    have hobject := ih hxs hl hw
      ((commas_mono (List.prefix_append ..)).trans_lt hcommas) le_rfl le_rfl
    exact (hobject.property hdot hname).loosen le_rfl hcall
  | @group inner hinner _ =>
    obtain ⟨_, _, -, hrest, hcons⟩ := spells_cons.mp hs
    obtain ⟨rfl, rfl⟩ := List.cons.inj hcons
    obtain ⟨xs, _, hxs, hclosing, rfl⟩ := spells_append.mp hrest
    obtain ⟨paren, hparen, rfl⟩ := spells_singleton.mp hclosing
    obtain ⟨before, a, hlevel, hs', hlen, hw'⟩ := hinner.exists_arguments hxs
    have hlen' : (before ++ [a]).length ≤ maxArguments := by
      have hmono := commas_mono (List.prefix_append xs [paren])
      rw [List.length_append, List.length_singleton]
      omega
    exact (((absorbs_nil .call).call hopening hparen hlevel hs').mono
      (max_le (Nat.zero_le _) (max_le hlen' (hw'.trans hw)))).loosen le_rfl hcall
  | @literal x =>
    refine first hs ?_
    rcases x with x | s | (_ | _) | _ <;> simp [Mark.kindOf, Literal.kind]
  | reference hname => exact first hs (by simp [Mark.kindOf, hname])
  | this hkeyword => exact first hs (by simp [Mark.kindOf, hkeyword])

end

end Lox.Grammar
