import Mathlib.Order.Filter.AtTopBot.Basic
import Lox.Proofs.Grammar.Reading

/-!
What a rule comes to when its allowance is large enough.

A rule that takes an allowance settles on an outcome if it has that outcome with every allowance
from some number on. Rules made of two settle if their parts do, so that no allowance is ever
counted.
-/

namespace Lox.Grammar

open Filter

variable {α β : Type}

namespace Rule

/-- With every allowance that is large enough the rule has the same outcome, which has a
property. -/
def Settles (r : ℕ → Rule α) (c : Cursor) (S : Outcome α → Prop) : Prop :=
  ∃ o, S o ∧ ∀ᶠ n in atTop, r n c = o

/-- With a large enough allowance the rule succeeds without a new complaint, stops before `rest`,
and yields something with a property. -/
def YieldsAt (r : ℕ → Rule α) (c : Cursor) (rest : List Token) (P : α → Prop) : Prop :=
  Settles r c fun o => ∃ a j, P a ∧ o = .done a { c with rest, nextId := j }

variable {c : Cursor} {r : ℕ → Rule α} {rest : List Token} {P : α → Prop} {Q : β → Prop}
  {S : Outcome β → Prop}

lemma YieldsAt.exists_done (h : YieldsAt r c rest P) :
    ∃ a j, P a ∧ ∀ᶠ n in atTop, r n c = .done a { c with rest, nextId := j } := by
  obtain ⟨_, ⟨a, j, ha, rfl⟩, hr⟩ := h
  exact ⟨a, j, ha, hr⟩

lemma yieldsAt_of_done {a : α} {j : NodeId} (ha : P a)
    (hr : ∀ᶠ n in atTop, r n c = .done a { c with rest, nextId := j }) : YieldsAt r c rest P :=
  ⟨_, ⟨a, j, ha, rfl⟩, hr⟩

lemma YieldsAt.mono {P' : α → Prop} (h : YieldsAt r c rest P) (hP : ∀ a, P a → P' a) :
    YieldsAt r c rest P' := by
  obtain ⟨a, j, ha, hr⟩ := h.exists_done
  exact yieldsAt_of_done (hP a ha) hr

lemma settles_pure {a : α} {S : Outcome α → Prop} (h : S (.done a c)) :
    Settles (fun _ => pure a) c S :=
  ⟨_, h, .of_forall fun _ => rfl⟩

lemma yieldsAt_pure {a : α} (h : P a) (hc : c.rest = rest) :
    YieldsAt (fun _ => pure a) c rest P := by
  subst hc
  exact yieldsAt_of_done h (.of_forall fun _ => rfl)

/-- One step more makes no difference in the end. -/
lemma settles_succ {S : Outcome α → Prop} (h : Settles (fun n => r (n + 1)) c S) :
    Settles r c S := by
  obtain ⟨o, ho, hr⟩ := h
  obtain ⟨N, hN⟩ := eventually_atTop.mp hr
  refine ⟨o, ho, eventually_atTop.mpr ⟨N + 1, fun n hn => ?_⟩⟩
  obtain ⟨m, rfl⟩ : ∃ m, n = m + 1 := ⟨n - 1, by omega⟩
  exact hN m (by omega)

/-- A first part of which the outcome is known. -/
lemma settles_of_eventually {f : ℕ → α → Rule β} {a : α} {c₁ : Cursor}
    (hr : ∀ᶠ n in atTop, r n c = .done a c₁) (hf : Settles (fun n => f n a) c₁ S) :
    Settles (fun n => r n >>= f n) c S := by
  obtain ⟨o, ho, hf⟩ := hf
  refine ⟨o, ho, ?_⟩
  filter_upwards [hr, hf] with n hr hf
  rw [bind_apply, hr]
  exact hf

lemma settles_bind {f : ℕ → α → Rule β} (h : YieldsAt r c rest P)
    (hf : ∀ a j, P a → Settles (fun n => f n a) { c with rest, nextId := j } S) :
    Settles (fun n => r n >>= f n) c S := by
  obtain ⟨a, j, ha, hr⟩ := h.exists_done
  exact settles_of_eventually hr (hf a j ha)

lemma yieldsAt_map {f : α → β} (h : YieldsAt r c rest fun a => Q (f a)) :
    YieldsAt (fun n => f <$> r n) c rest Q :=
  settles_bind h fun _ _ ha => yieldsAt_pure ha rfl

lemma yieldsAt_recovering {f : α → β} {b : β} (h : YieldsAt r c rest (f · = b)) :
    YieldsAt (fun n => recovering (r n)) c rest (·.map f = some b) := by
  obtain ⟨a, j, ha, hr⟩ := h.exists_done
  refine yieldsAt_of_done (a := some a) (j := j) (congrArg some ha) ?_
  filter_upwards [hr] with n hr
  rw [recovering, hr]

section
variable {t : Token} {us : List Token}

/-- A first part that needs no allowance. -/
lemma settles_of_done {r : Rule α} {f : ℕ → α → Rule β} {a : α} {c₁ : Cursor}
    (hr : r c = .done a c₁) (hf : Settles (fun n => f n a) c₁ S) :
    Settles (fun n => r >>= f n) c S :=
  settles_of_eventually (.of_forall fun _ => hr) hf

lemma settles_freshId_bind {f : ℕ → NodeId → Rule β}
    (h : Settles (fun n => f n c.nextId) { c with nextId := c.nextId + 1 } S) :
    Settles (fun n => freshId >>= f n) c S := settles_of_done rfl h

lemma settles_peek_bind {f : ℕ → Token → Rule β} (hc : c.rest = t :: us)
    (h : Settles (fun n => f n t) c S) : Settles (fun n => peek >>= f n) c S :=
  settles_of_done (by simp [peek, Cursor.front, hc]) h

lemma settles_advance_bind {f : ℕ → PUnit → Rule β} (hc : c.rest = t :: us)
    (h : Settles (fun n => f n ⟨⟩) { c with rest := us } S) :
    Settles (fun n => advance >>= f n) c S :=
  settles_of_done (by simp [advance, hc]) h

lemma settles_expect_bind {p : Kind → Bool} {e : Fault} {f : ℕ → Token → Rule β}
    (hc : c.rest = t :: us) (hp : p t.kind)
    (h : Settles (fun n => f n t) { c with rest := us } S) :
    Settles (fun n => expect p e >>= f n) c S :=
  settles_of_done (by simp [expect, hc, hp]) h

lemma settles_accept_bind {p : Kind → Bool} {f : ℕ → Option Token → Rule β}
    (hc : c.rest = t :: us) (hp : p t.kind)
    (h : Settles (fun n => f n (some t)) { c with rest := us } S) :
    Settles (fun n => accept p >>= f n) c S :=
  settles_of_done (by simp [accept, hc, hp]) h

lemma settles_not_accept_bind {p : Kind → Bool} {f : ℕ → Option Token → Rule β}
    (hp : ∀ t ∈ c.rest.head?, p t.kind = false) (h : Settles (fun n => f n none) c S) :
    Settles (fun n => accept p >>= f n) c S := by
  refine settles_of_done (a := none) ?_ h
  unfold accept
  cases hc : c.rest with
  | nil => simp
  | cons t us => simp [hp t (by simp [hc])]

lemma settles_atEnd_bind {f : ℕ → Bool → Rule β}
    (h : Settles (fun n => f n c.rest.isEmpty) c S) :
    Settles (fun n => atEnd >>= f n) c S := settles_of_done rfl h

lemma settles_sees_bind {p : Kind → Bool} {f : ℕ → Bool → Rule β} (hc : c.rest = t :: us)
    (h : Settles (fun n => f n (p t.kind)) c S) :
    Settles (fun n => sees p >>= f n) c S :=
  settles_of_done (by simp [sees, hc]) h

lemma settles_require_bind {b : Bool} {e : Fault} {f : ℕ → PUnit → Rule β} (hb : b)
    (h : Settles (fun n => f n ⟨⟩) c S) :
    Settles (fun n => require b t e >>= f n) c S :=
  settles_of_done (by rw [require, if_pos hb]; rfl) h

lemma yieldsAt_unlessSees {s : Symbol} {a : α} (hc : c.rest = t :: us) (ht : t.kind = .symbol s)
    (ha : P a) : YieldsAt (fun n => unlessSees s a (r n)) c c.rest P := by
  refine settles_sees_bind hc ?_
  simp only [ht, Kind.isSymbol, decide_true, if_true]
  exact yieldsAt_pure ha rfl

lemma settles_not_unlessSees {S : Outcome α → Prop} {s : Symbol} {a : α} (hc : c.rest = t :: us)
    (ht : t.kind.isSymbol s = false) (h : Settles r c S) :
    Settles (fun n => unlessSees s a (r n)) c S :=
  settles_sees_bind hc (by simpa [ht] using h)

end

end Rule

end Lox.Grammar
