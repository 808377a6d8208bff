import Lox.Proofs.Grammar.Absorbing
import Lox.Proofs.Grammar.Failing

/-!
What it costs that an expression goes on.

Two expressions without a semicolon between them are read as one, if the second starts with a minus
or a parenthesis. This costs a complaint at most: what the second assigns to may now be more than
the property that it was.
-/

namespace Lox.Grammar

open Rule

/-- After every expression of the level the tokens are read with it, with one complaint at most. -/
def SlipsAfter (l : Level) (us : List Token) : Prop :=
  ∀ e ts c rest, At l e → e.widest ≤ maxArguments → Spells e.yield ts → Stops l rest →
    c.rest = ts ++ (us ++ rest) → SlipsAt (fun n => expr n l) c rest

/-- After every expression the tokens are read with it, with one complaint at most, and then a chain
may go on with whatever follows. -/
def SlipsOn (us : List Token) : Prop :=
  ∀ e ts c rest, At .comma e → e.widest ≤ maxArguments → Spells e.yield ts →
    Stops .assignment rest → c.rest = ts ++ (us ++ rest) → ∃ a j es, es.length ≤ 1 ∧
      ∀ S, Settles (fun n => chain n .comma a)
          { c with rest, nextId := j, complaints := es ++ c.complaints } S →
        Settles (fun n => expr n .comma) c S

section
variable {l : Level} {e value : Expr} {us vs rest : List Token} {c : Cursor} {w : ℕ}

lemma Absorbs.slipsAfter (h : Absorbs l w us) (hw : w ≤ maxArguments) : SlipsAfter l us := by
  intro e ts c rest he hwe hs hstops hc
  obtain ⟨e', he', hs', hw'⟩ := h e ts he hs
  have hcovers := (he'.covers (hw'.trans (max_le hwe hw))).1
  exact (hcovers _ rest c hs' hstops (by rw [hc, List.append_assoc])).slipsAt

/-! ### Assignments -/

/-- What stands left of an equals sign may be complained about. -/
lemma slipsAt_assignTo (target : Expr) (equals : Token) (value : Expr) (c : Cursor) :
    SlipsAt (fun _ => assignTo target equals value) c c.rest := by
  cases target with
  | reference id name =>
    exact ⟨_, ⟨_, c.nextId + 1, [], Nat.zero_le 1, rfl⟩, .of_forall fun _ => rfl⟩
  | property object name =>
    exact ⟨_, ⟨_, c.nextId, [], Nat.zero_le 1, rfl⟩, .of_forall fun _ => rfl⟩
  | _ =>
    exact ⟨_, ⟨_, c.nextId, [complaint equals .invalidTarget], le_rfl, rfl⟩, .of_forall fun _ => rfl⟩

/-- A name or a property is not complained about. -/
lemma yieldsAt_assignTo {target target' : Expr} (ht : target'.unnumbered = target.unnumbered)
    (htarget : (∃ id name, target = .reference id name) ∨
      ∃ object name, target = .property object name)
    (equals : Token) (value : Expr) (hc : c.rest = rest) :
    YieldsAt (fun _ => assignTo target' equals value) c rest fun _ => True := by
  obtain ⟨id, name, rfl⟩ | ⟨object, name, rfl⟩ := htarget
  · cases target' <;> simp only [Expr.unnumbered, reduceCtorEq] at ht
    exact settles_freshId_bind (yieldsAt_pure trivial hc)
  · cases target' <;> simp only [Expr.unnumbered, reduceCtorEq] at ht
    exact yieldsAt_pure trivial hc

/-- Where the value that is assigned slips, the assignment does. -/
lemma slipsAt_assignment {target : Expr} {ts : List Token} {equals : Token}
    (hcovers : Covers .conditional target) (hs : Spells target.yield ts)
    (htarget : (∃ id name, target = .reference id name) ∨
      ∃ object name, target = .property object name)
    (hequals : equals.kind = .symbol .equal) (hc : c.rest = ts ++ equals :: us)
    (h : ∀ c₁ : Cursor, c₁.rest = us → SlipsAt (fun n => expr n .assignment) c₁ rest) :
    SlipsAt (fun n => expr n .assignment) c rest := by
  have hstops : Stops .conditional (equals :: us) :=
    stops_of_continues (by rw [hequals]; rfl) (by decide)
  refine settles_succ ?_
  simp only [expr]
  refine settles_bind (hcovers ts _ c hs hstops hc) fun target' i ht => ?_
  refine settles_accept_bind rfl (by rw [hequals]; rfl) ?_
  exact (h _ rfl).bind fun value c₁ hc₁ => yieldsAt_assignTo ht htarget equals value hc₁

/-- An equals sign and a value after what goes on with a conditional. -/
lemma Absorbs.slipsAfter_assignment {equals : Token} (h : Absorbs .conditional w us)
    (hw : w ≤ maxArguments) (hequals : equals.kind = .symbol .equal) (hvalue : At .assignment value)
    (hwvalue : value.widest ≤ maxArguments) (hs : Spells value.yield vs) :
    SlipsAfter .assignment (us ++ equals :: vs) := by
  -- on the assignments in front, the last of which takes the new target as its value
  intro e ts c rest he hwe hts hstops hc
  generalize hl : Level.assignment = l at he
  induction he generalizing ts c with
  | tighter hlt he _ =>
    subst hl
    obtain ⟨e', he', hs', hw'⟩ := h _ ts (he.loosen (Nat.le_of_lt_succ hlt)) hts
    have hcovers := (he'.covers (hw'.trans (max_le hwe hw))).1
    have hstops' : Stops .conditional (equals :: (vs ++ rest)) :=
      stops_of_continues (by rw [hequals]; rfl) (by decide)
    refine settles_succ ?_
    simp only [expr]
    refine settles_bind (hcovers _ _ c hs' hstops' (by simp [hc])) fun target i _ => ?_
    refine settles_accept_bind rfl (by rw [hequals]; rfl) ?_
    refine settles_bind ((hvalue.covers hwvalue).1 vs rest _ hs hstops rfl) fun value' j _ => ?_
    exact slipsAt_assignTo target equals value' _
  | @assign id name value hname _ ih =>
    obtain ⟨name, _, rfl, hrest, rfl⟩ := spells_cons.mp hts
    obtain ⟨equals', xs, hequals', hxs, rfl⟩ := spells_cons.mp hrest
    have htarget : Covers .conditional (.reference id name) :=
      (covers_reference hname).loosen (by decide) (.reference hname)
    refine slipsAt_assignment htarget (.token name .nil) (.inl ⟨_, _, rfl⟩) hequals' hc
      fun c₁ hc₁ => ?_
    exact ih xs c₁ hwe hxs hc₁ rfl
  | @setProperty object name value hobject hname _ _ ih =>
    obtain ⟨hwobject, hwvalue⟩ := max_le_iff.mp hwe
    obtain ⟨xs, _, hxs, hrest, rfl⟩ := spells_append.mp hts
    simp only [spells_cons] at hrest
    obtain ⟨dot, _, hdot, ⟨name, _, rfl, ⟨equals', ys, hequals', hys, rfl⟩, rfl⟩, rfl⟩ := hrest
    have hproperty := passes_property hname ((hobject.covers hwobject).2 rfl)
    refine slipsAt_assignment (hproperty.covers.loosen (by decide) (.property hobject hname))
      (hxs.append (.symbol hdot (.token name .nil))) (.inr ⟨_, _, rfl⟩) hequals' (by simpa using hc)
      fun c₁ hc₁ => ?_
    exact ih ys c₁ hwvalue hys (by simpa using hc₁) rfl
  | binary hop =>
    obtain ⟨rfl, -⟩ | htight := height_of_binaryLevel? hop
    · cases hl
    · exact absurd (hl ▸ htight) (by decide)
  | logical hop => exact absurd (hl ▸ (height_of_logicalLevel? hop).2) (by decide)
  | _ => cases hl

/-! ### Chains of commas -/

lemma SlipsAfter.slipsOn (h : SlipsAfter .assignment us) : SlipsOn us := by
  intro e ts c rest he hw hs hstops hc
  have single {e : Expr} {c : Cursor} {ts : List Token} (he : At .assignment e)
      (hw : e.widest ≤ maxArguments) (hs : Spells e.yield ts) (hc : c.rest = ts ++ (us ++ rest)) :
      SlipsAt (fun n => expr n .assignment) c rest := h e ts c rest he hw hs hstops hc
  cases he with
  | @tighter _ l _ hlt he =>
    obtain ⟨_, ⟨a, j, es, hes, rfl⟩, hr⟩ := single (he.loosen (Nat.le_of_lt_succ hlt)) hw hs hc
    refine ⟨a, j, es, hes, fun S hS => settles_succ ?_⟩
    exact settles_of_eventually hr hS
  | @binary _ l left op right hop hleft hlt hright =>
    obtain ⟨hwleft, hwright⟩ := max_le_iff.mp hw
    obtain ⟨xs, _, hxs, hrest, rfl⟩ := spells_append.mp hs
    obtain ⟨op, ys, rfl, hys, rfl⟩ := spells_cons.mp hrest
    have hchains := (chains_of_binaryLevel? hop).1
    have hstops' : Stops .assignment (op :: (ys ++ (us ++ rest))) :=
      stops_of_continues (continues?_of_chains hchains) (by decide)
    obtain ⟨left', i, -, hpass⟩ :=
      (hleft.covers hwleft).2 rfl xs _ c hxs hstops' (by simp [hc])
    obtain ⟨_, ⟨a, j, es, hes, rfl⟩, hr⟩ := single
      (c := { c with rest := ys ++ (us ++ rest), nextId := i })
      (hright.loosen (Nat.le_of_lt_succ hlt)) hwright hys rfl
    refine ⟨Level.comma.link left' op a, j, es, hes, fun S hS => hpass S (settles_succ ?_)⟩
    simp only [readOn_of_ne_call (l := .comma) nofun, chain]
    exact settles_accept_bind rfl hchains (settles_of_eventually hr hS)
  | logical hop => exact absurd (height_of_logicalLevel? hop).2 (by decide)

lemma SlipsOn.link {right : Expr} {op : Token} (h : SlipsOn us)
    (hop : Level.comma.chains op.kind) (hright : At .assignment right)
    (hw : right.widest ≤ maxArguments) (hs : Spells right.yield vs) :
    SlipsOn (us ++ op :: vs) := by
  intro e ts c rest he hwe hts hstops hc
  have hstops' : Stops .assignment (op :: (vs ++ rest)) :=
    stops_of_continues (continues?_of_chains hop) (by decide)
  obtain ⟨a, j, es, hes, hpass⟩ := h e ts c _ he hwe hts hstops' (by simp [hc])
  obtain ⟨right', k, -, hr⟩ := ((hright.covers hw).1 vs rest
    { c with rest := vs ++ rest, nextId := j, complaints := es ++ c.complaints } hs hstops
    rfl).exists_done
  refine ⟨Level.comma.link a op right', k, es, hes, fun S hS => hpass S (settles_succ ?_)⟩
  simp only [chain]
  exact settles_accept_bind rfl hop (settles_of_eventually hr hS)

lemma SlipsOn.slipsAfter (h : SlipsOn us) : SlipsAfter .comma us := by
  intro e ts c rest he hw hs hstops hc
  obtain ⟨a, j, es, hes, hpass⟩ := h e ts c rest he hw hs hstops.tighter hc
  refine hpass _ ?_
  obtain ⟨a', k, -, hr⟩ := (yieldsAt_readOn (l := .comma) (e := a) (P := fun _ => True)
    (c := { c with rest, nextId := j, complaints := es ++ c.complaints }) hstops trivial).exists_done
  exact ⟨_, ⟨a', k, es, hes, rfl⟩, hr⟩

/-! ### After a parenthesis -/

/-- An expression that starts with a parenthesis is read with one in front of it. -/
lemma At.slipsOn {opening : Token} (h : At l e) (hopening : opening.kind = .symbol .leftParen)
    (hs : Spells e.yield (opening :: us)) (hw : e.widest ≤ maxArguments)
    (hcommas : commas us < maxArguments) : SlipsOn (opening :: us) := by
  have tight {l : Level} {e : Expr} {us : List Token} (h : At l e)
      (hl : l.height ≤ Level.conditional.height) (hs : Spells e.yield (opening :: us))
      (hw : e.widest ≤ maxArguments) (hcommas : commas us < maxArguments) :
      SlipsOn (opening :: us) := by
    have habsorbs : Absorbs .assignment maxArguments (opening :: us) :=
      h.absorbs_of_paren hopening hs hl hw hcommas (hl.trans (by decide)) (by decide)
    exact (habsorbs.slipsAfter le_rfl).slipsOn
  induction h generalizing us with
  | tighter _ _ ih => exact ih hs hw hcommas
  | @binary l l' left op right hop hleft hlt hright ih _ =>
    rcases le_or_gt l.height Level.conditional.height with hl | hl
    · exact tight (.binary hop hleft hlt hright) hl hs hw hcommas
    obtain ⟨hwleft, hwright⟩ := max_le_iff.mp hw
    obtain ⟨xs, _, rfl, hxs, hrest⟩ := exists_front hleft hs
    obtain ⟨op, ys, rfl, hys, rfl⟩ := spells_cons.mp hrest
    obtain ⟨rfl, -⟩ : l = .comma ∧ op.kind = .symbol .comma :=
      (height_of_binaryLevel? hop).resolve_right fun htight =>
        absurd (hl.trans htight) (by decide)
    exact (ih hxs hwleft ((commas_mono (List.prefix_append ..)).trans_lt hcommas)).link
      (chains_of_binaryLevel? hop).1 (hright.loosen (Nat.le_of_lt_succ hlt)) hwright hys
  | @logical l l' left op right hop hleft hlt hright _ _ =>
    have hor := (height_of_logicalLevel? hop).2
    exact tight (.logical hop hleft hlt hright) (hor.trans (by decide)) hs hw hcommas
  | assign hname _ _ =>
    obtain ⟨_, _, hfits, -, hcons⟩ := spells_cons.mp hs
    obtain ⟨rfl, -⟩ := List.cons.inj hcons
    rw [show opening = _ from hfits, hname] at hopening
    cases hopening
  | @setProperty object name value hobject hname hvalue _ _ =>
    obtain ⟨hwobject, hwvalue⟩ := max_le_iff.mp hw
    obtain ⟨xs, _, rfl, hxs, hrest⟩ := exists_front hobject hs
    simp only [spells_cons] at hrest
    obtain ⟨dot, _, hdot, ⟨name, _, rfl, ⟨equals, ys, hequals, hys, rfl⟩, rfl⟩, rfl⟩ := hrest
    have hobject := hobject.absorbs_of_paren hopening hxs (by decide) hwobject
      ((commas_mono (List.prefix_append ..)).trans_lt hcommas) le_rfl le_rfl
    have htarget : Absorbs .conditional _ _ :=
      (hobject.property hdot hname).loosen le_rfl (by decide)
    have hslips := htarget.slipsAfter_assignment le_rfl hequals hvalue hwvalue hys
    simpa using hslips.slipsOn
  | conditional hc ht he => exact tight (.conditional hc ht he) le_rfl hs hw hcommas
  | unary hop hoperand => exact tight (.unary hop hoperand) (by decide) hs hw hcommas
  | call hcallee hparen hargs =>
    exact tight (.call hcallee hparen hargs) (by decide) hs hw hcommas
  | property hobject hname => exact tight (.property hobject hname) (by decide) hs hw hcommas
  | group hinner => exact tight (.group hinner) (by decide) hs hw hcommas
  | literal => exact tight .literal (by decide) hs hw hcommas
  | reference hname => exact tight (.reference hname) (by decide) hs hw hcommas
  | this hkeyword => exact tight (.this hkeyword) (by decide) hs hw hcommas

end

/-- An expression and one that starts with a minus, or with a parenthesis and not too many commas
after it, are read as one, with one complaint at most. -/
lemma Expression.slipsAt_append {e e' : Expr} {ts us rest : List Token} {t : Token} {c : Cursor}
    (h : Expression e ts) (hw : e.widest ≤ maxArguments) (h' : Expression e' (t :: us))
    (hw' : e'.widest ≤ maxArguments) (ht : t.kind = .symbol .minus ∨
      t.kind = .symbol .leftParen ∧ commas us < maxArguments)
    (hstops : Stops .comma rest) (hc : c.rest = ts ++ (t :: us ++ rest)) :
    SlipsAt expression c rest := by
  have hslips : SlipsAfter .comma (t :: us) := by
    rcases ht with ht | ⟨ht, hcommas⟩
    · exact (h'.1.absorbs_of_minus ht h'.2 le_rfl (by decide)).slipsAfter hw'
    · exact (h'.1.slipsOn ht h'.2 hw' hcommas).slipsAfter
  exact hslips e ts c rest h.1 hw h.2 hstops hc

end Lox.Grammar
