import Lox.Proofs.Grammar.StatementSettling

/-!
What a failure costs.

A rule that fails gives up the declaration around it, at the cost of one complaint. Reading resumes
after it: where the failure is at the front of a simple statement, after that statement.
-/

namespace Lox.Grammar

open Filter

namespace Rule

variable {α β : Type}

/-- With a large enough allowance the rule fails before `rest`, with no complaint until then. -/
def FailsAt (r : ℕ → Rule α) (c : Cursor) (rest : List Token) : Prop :=
  Settles r c fun o => ∃ e j, o = .failed e { c with rest, nextId := j }

/-- With a large enough allowance the rule succeeds with one new complaint at most, and stops
before `rest`. -/
def SlipsAt (r : ℕ → Rule α) (c : Cursor) (rest : List Token) : Prop :=
  Settles r c fun o => ∃ a j es, es.length ≤ 1 ∧
    o = .done a { c with rest, nextId := j, complaints := es ++ c.complaints }

variable {c : Cursor} {r : ℕ → Rule α} {rest rest' : List Token} {P : α → Prop}

lemma FailsAt.bind (h : FailsAt r c rest) (f : ℕ → α → Rule β) :
    FailsAt (fun n => r n >>= f n) c rest := by
  obtain ⟨_, ⟨e, j, rfl⟩, hr⟩ := h
  refine ⟨_, ⟨e, j, rfl⟩, ?_⟩
  filter_upwards [hr] with n hr
  rw [bind_apply, hr]

lemma FailsAt.map (h : FailsAt r c rest) (f : α → β) : FailsAt (fun n => f <$> r n) c rest :=
  h.bind _

lemma failsAt_expect {p : Kind → Bool} (hp : ∀ t ∈ c.rest.head?, p t.kind = false) (e : Fault)
    (f : ℕ → Token → Rule β) : FailsAt (fun n => expect p e >>= f n) c c.rest := by
  refine FailsAt.bind (r := fun _ => expect p e) ?_ f
  refine ⟨_, ⟨complaint c.front e, c.nextId, rfl⟩, .of_forall fun n => ?_⟩
  obtain ⟨rest, stop, hstop, i, cs⟩ := c
  cases rest with
  | nil => rfl
  | cons t us => simp [expect, hp t rfl, Cursor.front]

lemma YieldsAt.slipsAt (h : YieldsAt r c rest P) : SlipsAt r c rest := by
  obtain ⟨a, j, -, hr⟩ := h.exists_done
  exact ⟨_, ⟨a, j, [], Nat.zero_le 1, rfl⟩, hr⟩

lemma SlipsAt.bind {f : ℕ → α → Rule β} (h : SlipsAt r c rest)
    (hf : ∀ a c₁, c₁.rest = rest → YieldsAt (fun n => f n a) c₁ rest' fun _ => True) :
    SlipsAt (fun n => r n >>= f n) c rest' := by
  obtain ⟨_, ⟨a, j, es, hes, rfl⟩, hr⟩ := h
  obtain ⟨b, k, -, hb⟩ :=
    (hf a { c with rest, nextId := j, complaints := es ++ c.complaints } rfl).exists_done
  exact settles_of_eventually hr ⟨_, ⟨b, k, es, hes, rfl⟩, hb⟩

lemma SlipsAt.map (h : SlipsAt r c rest) (f : α → β) : SlipsAt (fun n => f <$> r n) c rest :=
  h.bind fun _ _ hc => yieldsAt_pure trivial hc

/-- A failure is recovered from at the cost of one complaint. -/
lemma FailsAt.recovering (h : FailsAt r c rest) :
    SlipsAt (fun n => recovering (r n)) c (resume rest) := by
  obtain ⟨_, ⟨e, j, rfl⟩, hr⟩ := h
  refine ⟨_, ⟨none, j, [e], le_rfl, rfl⟩, ?_⟩
  filter_upwards [hr] with n hr
  rw [Grammar.recovering, hr]
  rfl

lemma SlipsAt.recovering (h : SlipsAt r c rest) :
    SlipsAt (fun n => recovering (r n)) c rest := by
  obtain ⟨_, ⟨a, j, es, hes, rfl⟩, hr⟩ := h
  refine ⟨_, ⟨some a, j, es, hes, rfl⟩, ?_⟩
  filter_upwards [hr] with n hr
  rw [Grammar.recovering, hr]

end Rule

open Rule

variable {c : Cursor} {rest us : List Token} {t : Token}

/-! ### Where no expression starts -/

/-- The words that start a statement do nothing in an expression. -/
lemma inert_of_startsStatement {k : Kind} (h : startsStatement k) :
    begins k = false ∧ continues? k = none ∧ isUnary k = false ∧ Level.ofStray? k = none := by
  unfold startsStatement at h
  split at h <;> first | exact ⟨rfl, rfl, rfl, rfl⟩ | exact absurd h (by decide)

lemma failsAt_primary (h : ∀ t ∈ c.rest.head?, startsStatement t.kind) :
    FailsAt primary c c.rest := by
  have hfront : begins c.front.kind = false ∧ Level.ofStray? c.front.kind = none := by
    unfold Cursor.front
    cases hc : c.rest with
    | nil => simp [c.stop_kind, begins, Level.ofStray?]
    | cons t us =>
      obtain ⟨hbegins, -, -, hstray⟩ := inert_of_startsStatement (h t (by simp [hc]))
      exact ⟨hbegins, hstray⟩
  refine settles_succ ?_
  simp only [primary]
  refine settles_of_done (a := c.front) rfl ?_
  split
  case h_9 =>
    simp only [hfront.2]
    exact ⟨_, ⟨_, c.nextId, rfl⟩, .of_forall fun _ => rfl⟩
  all_goals simp_all [begins]

/-- At a word that starts a statement, and at the end of input, no level reads an expression. -/
lemma failsAt_expr (l : Level) (h : ∀ t ∈ c.rest.head?, startsStatement t.kind) :
    FailsAt (fun n => expr n l) c c.rest := by
  induction hn : l.height generalizing l with
  | zero =>
    obtain rfl : l = .primary := Level.eq_of_height_eq hn
    exact settles_succ (failsAt_primary h)
  | succ n ih =>
    have htighter := ih l.tighter (by rw [Level.height_tighter]; omega)
    refine settles_succ ?_
    by_cases hl : l.readsOn
    · simp only [expr_readsOn hl]
      exact htighter.bind _
    · cases l with
      | assignment => simp only [expr]; exact htighter.bind _
      | conditional => simp only [expr]; exact htighter.bind _
      | unary =>
        simp only [expr]
        refine settles_not_accept_bind (fun t ht => ?_) htighter
        exact (inert_of_startsStatement (h t ht)).2.2.1
      | primary => cases hn
      | _ => exact absurd rfl hl

/-! ### After a simple statement -/

/-- Reading resumes after the next semicolon, unless a word that starts a statement comes
before. -/
lemma resumeAfter_semicolon {last semicolon : Token} (hlast : last.kind.isSymbol .semicolon = false)
    (hus : ∀ t ∈ us, startsStatement t.kind = false ∧ t.kind.isSymbol .semicolon = false)
    (hsemicolon : semicolon.kind = .symbol .semicolon) (rest : List Token) :
    resumeAfter last (us ++ semicolon :: rest) = rest := by
  induction us generalizing last with
  | nil =>
    have hstart : startsStatement semicolon.kind = false := by rw [hsemicolon]; rfl
    have hsymbol : semicolon.kind.isSymbol .semicolon := by rw [hsemicolon]; rfl
    cases rest with
    | nil => simp [resumeAfter, hlast, hstart]
    | cons t rest => simp [resumeAfter, hlast, hstart, hsymbol]
  | cons t us ih =>
    obtain ⟨ht, hus⟩ := List.forall_mem_cons.mp hus
    rw [List.cons_append, resumeAfter, hlast, ht.1]
    exact ih ht.2 hus

end Lox.Grammar
