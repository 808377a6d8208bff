import Mathlib.Tactic.Common
import Mathlib.Data.List.Infix
import Lox.Proofs.Grammar.Composition

/-!
Where a rule has come to.

A rule goes forward only: what it leaves is the end of what it was given, before the same end of
input. A rule that fails stands at the token that its complaint names.
-/

namespace Lox.Grammar

variable {α β : Type}

/-- The second cursor stands where the first does, or later. -/
structure Cursor.Ahead (c c' : Cursor) : Prop where
  rest : c'.rest <:+ c.rest
  stop : c'.stop = c.stop

namespace Cursor.Ahead

lemma refl (c : Cursor) : c.Ahead c := ⟨List.suffix_rfl, rfl⟩

lemma trans {c c₁ c₂ : Cursor} (h : c.Ahead c₁) (h₁ : c₁.Ahead c₂) : c.Ahead c₂ :=
  ⟨h₁.rest.trans h.rest, h₁.stop.trans h.stop⟩

end Cursor.Ahead

/-- The outcome of going forward from a cursor. -/
inductive Outcome.From (c : Cursor) : Outcome α → Prop
  | done {a : α} {c' : Cursor} (h : c.Ahead c') : From c (.done a c')
  | failed {c' : Cursor} (h : c.Ahead c') (f : Fault) : From c (.failed (complaint c'.front f) c')
  | exhausted : From c .exhausted

/-- From every cursor the rule goes forward. -/
def Rule.Forward (r : Rule α) : Prop := ∀ c, (r c).From c

namespace Rule

lemma forward_pure (a : α) : (pure a : Rule α).Forward := fun c => .done (.refl c)

lemma forward_exhausted : (Rule.exhausted : Rule α).Forward := fun _ => .exhausted

lemma Forward.bind {r : Rule α} (h : r.Forward) {f : α → Rule β} (hf : ∀ a, (f a).Forward) :
    (r >>= f).Forward := by
  intro c
  rw [bind_apply]
  have hc := h c
  cases hr : r c with
  | done a c₁ =>
    rw [hr] at hc
    cases hc with
    | done h₁ =>
      have hc₁ := hf a c₁
      dsimp only
      cases hfa : f a c₁ with
      | done b c₂ =>
        rw [hfa] at hc₁
        cases hc₁ with
        | done h₂ => exact .done (h₁.trans h₂)
      | failed e c₂ =>
        rw [hfa] at hc₁
        cases hc₁ with
        | failed h₂ f => exact .failed (h₁.trans h₂) f
      | exhausted => exact .exhausted
  | failed e c₁ =>
    rw [hr] at hc
    cases hc with
    | failed h₁ f => exact .failed h₁ f
  | exhausted => exact .exhausted

/-! ### Primitive rules -/

lemma forward_peek : peek.Forward := fun c => .done (.refl c)

lemma forward_atEnd : atEnd.Forward := fun c => .done (.refl c)

lemma forward_sees (p : Kind → Bool) : (sees p).Forward := fun c => .done (.refl c)

lemma forward_advance : advance.Forward := fun c => .done ⟨List.tail_suffix c.rest, rfl⟩

lemma forward_accept (p : Kind → Bool) : (accept p).Forward := by
  rintro ⟨rest, stop, hstop, i, cs⟩
  cases rest with
  | nil => exact .done (.refl _)
  | cons t rest =>
    unfold accept
    dsimp only
    split
    · exact .done ⟨List.suffix_cons t rest, rfl⟩
    · exact .done (.refl _)

lemma forward_fail (f : Fault) : (fail f : Rule α).Forward := fun c => .failed (.refl c) f

lemma forward_expect (p : Kind → Bool) (f : Fault) : (expect p f).Forward := by
  rintro ⟨rest, stop, hstop, i, cs⟩
  cases rest with
  | nil => exact .failed (.refl _) f
  | cons t rest =>
    unfold expect
    dsimp only
    split
    · exact .done ⟨List.suffix_cons t rest, rfl⟩
    · exact .failed (.refl ⟨t :: rest, stop, hstop, i, cs⟩) f

lemma forward_report (t : Token) (f : Fault) : (report t f).Forward :=
  fun _ => .done ⟨List.suffix_rfl, rfl⟩

lemma forward_freshId : freshId.Forward := fun _ => .done ⟨List.suffix_rfl, rfl⟩

end Rule

lemma resumeAfter_suffix (last : Token) (ts : List Token) : resumeAfter last ts <:+ ts := by
  induction ts generalizing last with
  | nil => exact List.suffix_rfl
  | cons t ts ih =>
    rw [resumeAfter]
    split
    · exact List.suffix_rfl
    · exact (ih t).trans (List.suffix_cons t ts)

lemma resume_suffix (ts : List Token) : resume ts <:+ ts := by
  cases ts with
  | nil => exact List.suffix_rfl
  | cons t ts => exact (resumeAfter_suffix t ts).trans (List.suffix_cons t ts)

open Rule

lemma Rule.Forward.recovering {r : Rule α} (h : r.Forward) : (recovering r).Forward := by
  intro c
  have hc := h c
  unfold Grammar.recovering
  cases hr : r c with
  | done a c' =>
    rw [hr] at hc
    cases hc with
    | done h => exact .done h
  | failed e c' =>
    rw [hr] at hc
    cases hc with
    | failed h f => exact .done ⟨(resume_suffix c'.rest).trans h.rest, h.stop⟩
  | exhausted => exact .exhausted

/-- Every rule goes forward. -/
theorem Rule.Composed.forward {r : Rule α} (h : r.Composed) : r.Forward := by
  induction h with
  | pure a => exact forward_pure a
  | bind _ _ ihr ihf => exact ihr.bind ihf
  | recovering _ ih => exact ih.recovering
  | peek => exact forward_peek
  | atEnd => exact forward_atEnd
  | sees p => exact forward_sees p
  | advance => exact forward_advance
  | accept p => exact forward_accept p
  | expect p f => exact forward_expect p f
  | fail f => exact forward_fail f
  | report t f => exact forward_report t f
  | freshId => exact forward_freshId
  | exhausted => exact forward_exhausted

end Lox.Grammar
