import Lox.Grammar.Statement
import Lox.Proofs.Grammar.Precedence

/-!
What the rules for expressions read.

A rule that succeeds without complaint has read some tokens from the front, and what it yields is
related to them. Whether there was a complaint is known only at the end, so that what holds of the
parts of a rule is put to use there, in what is said of the whole.
-/

namespace Lox.Grammar

variable {α β : Type}

/-! ### Rules in general -/

namespace Rule

/-- Where the rule succeeds without complaint, the tokens it has read, what it yields and where it
stops are related. -/
def ReadsAt (r : Rule α) (c : Cursor) (Q : List Token → α → Cursor → Prop) : Prop :=
  ∀ a c', r c = .done a c' → c'.complaints = [] →
    c.complaints = [] ∧ ∃ ts, c.rest = ts ++ c'.rest ∧ Q ts a c'

variable {c : Cursor} {r : Rule α} {P : List Token → α → Cursor → Prop}
  {Q : List Token → β → Cursor → Prop}

lemma ReadsAt.mono {P' : List Token → α → Cursor → Prop} (h : r.ReadsAt c P)
    (hP : ∀ ts a c', P ts a c' → P' ts a c') : r.ReadsAt c P' := by
  intro a c' hr hq
  obtain ⟨hc, ts, hts, hp⟩ := h a c' hr hq
  exact ⟨hc, ts, hts, hP _ _ _ hp⟩

lemma readsAt_pure {a : α} (h : P [] a c) : (pure a : Rule α).ReadsAt c P := by
  rintro _ _ ⟨⟩ hq
  exact ⟨hq, [], rfl, h⟩

lemma readsAt_exhausted : (exhausted : Rule α).ReadsAt c P := nofun

lemma readsAt_fail (e : Fault) : (fail e : Rule α).ReadsAt c P := nofun

/-- What is shown of the first part is at hand when the second part is over. -/
lemma readsAt_bind {f : α → Rule β} (h : r.ReadsAt c P)
    (hf : ∀ a c₁, (f a).ReadsAt c₁ fun us b c' => ∀ ts, P ts a c₁ → Q (ts ++ us) b c') :
    (r >>= f).ReadsAt c Q := by
  intro b c' hb hq
  obtain ⟨a, c₁, ha, hb⟩ := bind_eq_done.mp hb
  obtain ⟨hq₁, us, hus, hQ⟩ := hf a c₁ b c' hb hq
  obtain ⟨hc, ts, hts, hP⟩ := h a c₁ ha hq₁
  exact ⟨hc, ts ++ us, by rw [hts, hus, List.append_assoc], hQ ts hP⟩

lemma readsAt_map {f : α → β} (h : r.ReadsAt c fun ts a c' => Q ts (f a) c') :
    (f <$> r).ReadsAt c Q := by
  intro b c' hb hq
  obtain ⟨a, ha, rfl⟩ := map_eq_done.mp hb
  exact h a c' ha hq

lemma readsAt_peek_bind {f : Token → Rule β} (h : (f c.front).ReadsAt c Q) :
    (peek >>= f).ReadsAt c Q := h

lemma readsAt_atEnd_bind {f : Bool → Rule β} (h : (f c.rest.isEmpty).ReadsAt c Q) :
    (atEnd >>= f).ReadsAt c Q := h

lemma readsAt_sees_bind {p : Kind → Bool} {f : Bool → Rule β} (h : ∀ b, (f b).ReadsAt c Q) :
    (sees p >>= f).ReadsAt c Q :=
  h _

lemma readsAt_freshId_bind {f : NodeId → Rule β}
    (h : (f c.nextId).ReadsAt { c with nextId := c.nextId + 1 } Q) :
    (freshId >>= f).ReadsAt c Q := h

/-- After a complaint there is nothing to show. -/
lemma readsAt_report_bind {t : Token} {e : Fault} {f : PUnit → Rule β}
    (h : ∀ c₁, (f ⟨⟩).ReadsAt c₁ fun _ _ _ => True) : (report t e >>= f).ReadsAt c Q := by
  intro b c' hb hq
  have := (h { c with complaints := complaint t e :: c.complaints } b c' hb hq).1
  exact absurd this (List.cons_ne_nil _ _)

lemma readsAt_require_bind {b : Bool} {t : Token} {e : Fault} {f : PUnit → Rule β}
    (h : ∀ c₁, c₁.rest = c.rest → c₁.nextId = c.nextId →
      (f ⟨⟩).ReadsAt c₁ fun us a c' => b = true → Q us a c') :
    (require b t e >>= f).ReadsAt c Q := by
  intro a c' ha hq
  cases b with
  | true =>
    obtain ⟨hc, ts, hts, hQ⟩ := h c rfl rfl a c' ha hq
    exact ⟨hc, ts, hts, hQ rfl⟩
  | false =>
    have := (h { c with complaints := complaint t e :: c.complaints } rfl rfl a c' ha hq).1
    exact absurd this (List.cons_ne_nil _ _)

lemma readsAt_advance_bind {t : Token} {rest : List Token} {f : PUnit → Rule β}
    (hc : c.rest = t :: rest)
    (h : (f ⟨⟩).ReadsAt { c with rest } fun us b c' => Q (t :: us) b c') :
    (advance >>= f).ReadsAt c Q := by
  have hadv : advance c = .done ⟨⟩ { c with rest } := by simp [advance, hc]
  intro b c' hb hq
  rw [bind_apply, hadv] at hb
  obtain ⟨hq, us, hus, hQ⟩ := h b c' hb hq
  exact ⟨hq, t :: us, by rw [hc, List.cons_append, ← hus], hQ⟩

lemma readsAt_accept_bind {p : Kind → Bool} {f : Option Token → Rule β}
    (hnone : (∀ t ∈ c.rest.head?, p t.kind = false) → (f none).ReadsAt c Q)
    (hsome : ∀ t rest, c.rest = t :: rest → p t.kind → (f (some t)).ReadsAt { c with rest }
      fun us b c' => Q (t :: us) b c') :
    (accept p >>= f).ReadsAt c Q := by
  intro b c' hb hq
  cases hc : c.rest with
  | nil =>
    have hacc : accept p c = .done none c := by simp [accept, hc]
    rw [bind_apply, hacc] at hb
    rw [← hc]
    exact hnone (by simp [hc]) b c' hb hq
  | cons t rest =>
    by_cases hp : p t.kind
    · have hacc : accept p c = .done (some t) { c with rest } := by simp [accept, hc, hp]
      rw [bind_apply, hacc] at hb
      obtain ⟨hq, us, hus, hQ⟩ := hsome t rest hc hp b c' hb hq
      exact ⟨hq, t :: us, by rw [List.cons_append, ← hus], hQ⟩
    · have hacc : accept p c = .done none c := by simp [accept, hc, hp]
      rw [bind_apply, hacc] at hb
      rw [← hc]
      exact hnone (by simp [hc, hp]) b c' hb hq

lemma readsAt_expect_bind {p : Kind → Bool} {e : Fault} {f : Token → Rule β}
    (h : ∀ t rest, p t.kind → (f t).ReadsAt { c with rest } fun us b c' => Q (t :: us) b c') :
    (expect p e >>= f).ReadsAt c Q := by
  intro b c' hb hq
  cases hc : c.rest with
  | nil => simp [bind_apply, expect, hc] at hb
  | cons t rest =>
    by_cases hp : p t.kind
    · have hexp : expect p e c = .done t { c with rest } := by simp [expect, hc, hp]
      rw [bind_apply, hexp] at hb
      obtain ⟨hq, us, hus, hQ⟩ := h t rest hp b c' hb hq
      exact ⟨hq, t :: us, by rw [List.cons_append, ← hus], hQ⟩
    · simp [bind_apply, expect, hc, hp] at hb

lemma readsAt_unlessSees {s : Symbol} {a : α} (ha : P [] a c) (hr : r.ReadsAt c P) :
    (unlessSees s a r).ReadsAt c P := by
  refine readsAt_sees_bind fun b => ?_
  cases b with
  | true => exact readsAt_pure ha
  | false => exact hr

/-- A failure is a complaint, even if reading goes on after it. -/
lemma readsAt_recovering (h : r.ReadsAt c P) :
    (recovering r).ReadsAt c fun ts o c' => ∃ a, o = some a ∧ P ts a c' := by
  intro o c' ho hq
  unfold recovering at ho
  cases hr : r c with
  | done a c₁ =>
    rw [hr] at ho
    cases ho
    obtain ⟨hc, ts, hts, hP⟩ := h a _ hr hq
    exact ⟨hc, ts, hts, a, rfl, hP⟩
  | failed e c₁ =>
    rw [hr] at ho
    cases ho
    exact absurd hq (List.cons_ne_nil _ _)
  | exhausted => rw [hr] at ho; cases ho

end Rule

open Rule

lemma kind_of_isSymbol {s : Symbol} {k : Kind} (h : k.isSymbol s) : k = .symbol s := by
  cases k <;> simp_all [Kind.isSymbol]

lemma kind_of_isKeyword {w : Keyword} {k : Kind} (h : k.isKeyword w) : k = .keyword w := by
  cases k <;> simp_all [Kind.isKeyword]

lemma kind_of_isIdentifier {k : Kind} (h : k.isIdentifier) : k = .identifier := by
  cases k <;> simp_all [Kind.isIdentifier]

lemma isSymbol_eq_false {p : Kind → Bool} {s : Symbol} {k : Kind} (hk : p k)
    (hs : p (.symbol s) = false) : k.isSymbol s = false := by
  by_contra h
  have hks : k = .symbol s := kind_of_isSymbol (by simpa using h)
  rw [hks, hs] at hk
  exact absurd hk (by decide)

lemma isKeyword_eq_false {p : Kind → Bool} {w : Keyword} {k : Kind} (hk : p k)
    (hw : p (.keyword w) = false) : k.isKeyword w = false := by
  by_contra h
  have hkw : k = .keyword w := kind_of_isKeyword (by simpa using h)
  rw [hkw, hw] at hk
  exact absurd hk (by decide)

end Lox.Grammar
