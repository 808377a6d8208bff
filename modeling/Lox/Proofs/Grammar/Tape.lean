import Lox.Proofs.Grammar.Composition
import Lox.Proofs.Grammar.Recovery

/-!
Rules carried out on a list of tokens with a place in it.

A tape holds all the tokens of an input, those after the first end of input too, and the place of
the next one. Nothing guards a look at a tape, so a rule goes on only while the places it looks at
are in range. On a tape that was loaded from an input no rule comes past the first end of input,
and each rule does what it does on a cursor.
-/

namespace Lox.Grammar

variable {α β : Type}

/-- The tokens up to the first end of input, which is added if there is none. -/
def throughEnd (tokens : List Token) : List Token := beforeEnd tokens ++ [stopToken tokens]

structure Tape where
  tokens : List Token
  /-- The place of the next token. -/
  current : ℕ
  nextId : NodeId
  /-- The complaints so far, the latest first. -/
  complaints : List Complaint

namespace Tape

/-- A tape at the front of a list of tokens. An end of input is put after them unless the last one
is of that kind. -/
def load (tokens : List Token) (firstId : NodeId) : Tape :=
  { tokens :=
      if tokens.getLast?.any (·.kind.isEof) then tokens
      else tokens ++ [⟨.eof, "", (tokens.getLast?.map (·.line)).getD 1⟩]
    current := 0
    nextId := firstId
    complaints := [] }

/-- The token at the place, or nothing if the place is out of range. -/
def peek? (t : Tape) : Option Token := t.tokens[t.current]?

/-- The token before the place, or nothing if that is out of range. -/
def previous? (t : Tape) : Option Token := t.tokens[t.current - 1]?

def atEnd? (t : Tape) : Option Bool := t.peek?.map (·.kind.isEof)

/-- Whether the token at the place is of some kind. The end of input is of none. -/
def check? (p : Kind → Bool) (t : Tape) : Option Bool := do
  if ← t.atEnd? then some false else t.peek?.map (p ·.kind)

/-- Moves past the token at the place, unless it is an end of input, and looks back. -/
def advance? (t : Tape) : Option (Token × Tape) := do
  let moved := if ← t.atEnd? then t else { t with current := t.current + 1 }
  moved.previous?.map (·, moved)

/-- Tokens are passed up to the next likely start of a statement, by way of some places. -/
inductive Skips : Tape → List ℕ → Tape → Prop
  | atEnd {t : Tape} (h : t.atEnd? = some true) : Skips t [t.current] t
  | resumes {t : Tape} {last next : Token} (h : t.atEnd? = some false)
      (hlast : t.previous? = some last) (hnext : t.peek? = some next)
      (hstart : last.kind.isSymbol .semicolon || startsStatement next.kind) :
      Skips t [t.current] t
  | passes {t t' t'' : Tape} {last next passed : Token} {places : List ℕ}
      (h : t.atEnd? = some false) (hlast : t.previous? = some last) (hnext : t.peek? = some next)
      (hstart : (last.kind.isSymbol .semicolon || startsStatement next.kind) = false)
      (hpassed : t.advance? = some (passed, t')) (hrest : Skips t' places t'') :
      Skips t (t.current :: places) t''

/-- How a rule that was carried out on a tape has ended. -/
inductive Result (α : Type)
  | done (a : α) (t : Tape)
  | failed (e : Complaint) (t : Tape)

/-- A rule is carried out on a tape, by way of some places, and ends. It cannot be if it looks out
of range. -/
inductive Runs : {α : Type} → Rule α → Tape → List ℕ → Result α → Prop
  | pure {α : Type} {t : Tape} (a : α) : Runs (pure a) t [t.current] (.done a t)
  | bind {α β : Type} {r : Rule α} {f : α → Rule β} {t t' : Tape} {a : α} {o : Result β}
      {places places' : List ℕ} (hr : Runs r t places (.done a t'))
      (hf : Runs (f a) t' places' o) : Runs (r >>= f) t (places ++ places') o
  | bind_failed {α β : Type} {r : Rule α} {f : α → Rule β} {t t' : Tape} {e : Complaint}
      {places : List ℕ} (hr : Runs r t places (.failed e t')) :
      Runs (r >>= f) t places (.failed e t')
  | peek {t : Tape} {next : Token} (h : t.peek? = some next) :
      Runs peek t [t.current] (.done next t)
  | atEnd {t : Tape} {b : Bool} (h : t.atEnd? = some b) : Runs atEnd t [t.current] (.done b t)
  | sees {t : Tape} {p : Kind → Bool} {b : Bool} (h : t.check? p = some b) :
      Runs (sees p) t [t.current] (.done b t)
  | advance {t t' : Tape} {passed : Token} (h : t.advance? = some (passed, t')) :
      Runs advance t [t.current, t'.current] (.done ⟨⟩ t')
  | accept {t t' : Tape} {p : Kind → Bool} {passed : Token} (h : t.check? p = some true)
      (ht : t.advance? = some (passed, t')) :
      Runs (accept p) t [t.current, t'.current] (.done (some passed) t')
  | accept_not {t : Tape} {p : Kind → Bool} (h : t.check? p = some false) :
      Runs (accept p) t [t.current] (.done none t)
  | expect {t t' : Tape} {p : Kind → Bool} {f : Fault} {passed : Token}
      (h : t.check? p = some true) (ht : t.advance? = some (passed, t')) :
      Runs (expect p f) t [t.current, t'.current] (.done passed t')
  | expect_not {t : Tape} {p : Kind → Bool} {f : Fault} {next : Token}
      (h : t.check? p = some false) (hnext : t.peek? = some next) :
      Runs (expect p f) t [t.current] (.failed (complaint next f) t)
  | fail {α : Type} {t : Tape} {f : Fault} {next : Token} (hnext : t.peek? = some next) :
      Runs (fail f : Rule α) t [t.current] (.failed (complaint next f) t)
  | report {t : Tape} (at' : Token) (f : Fault) :
      Runs (report at' f) t [t.current]
        (.done ⟨⟩ { t with complaints := complaint at' f :: t.complaints })
  | freshId {t : Tape} :
      Runs freshId t [t.current] (.done t.nextId { t with nextId := t.nextId + 1 })
  | recovering {α : Type} {r : Rule α} {t t' : Tape} {a : α} {places : List ℕ}
      (hr : Runs r t places (.done a t')) : Runs (recovering r) t places (.done (some a) t')
  | recovering_failed {α : Type} {r : Rule α} {t t' moved t'' : Tape} {e : Complaint}
      {passed : Token} {places places' : List ℕ} (hr : Runs r t places (.failed e t'))
      (hpassed : t'.advance? = some (passed, moved)) (hskips : Skips moved places' t'') :
      Runs (recovering r) t (places ++ places')
        (.done none { t'' with complaints := e :: t''.complaints })

/-! ### What a tape shows -/

/-- The cursor shows what is left on the tape before its first end of input. -/
structure Shows (t : Tape) (c : Cursor) : Prop where
  rest : c.rest = (beforeEnd t.tokens).drop t.current
  bound : t.current ≤ (beforeEnd t.tokens).length
  stop : t.tokens[(beforeEnd t.tokens).length]? = some c.stop
  nextId : t.nextId = c.nextId
  complaints : t.complaints = c.complaints

end Tape

lemma getElem?_of_beforeEnd {tokens : List Token} {i : ℕ} (h : i < (beforeEnd tokens).length) :
    tokens[i]? = (beforeEnd tokens)[i]? := by
  conv_lhs => rw [← List.takeWhile_append_dropWhile (p := (!·.kind.isEof)) (l := tokens)]
  exact List.getElem?_append_left h

namespace Tape

variable {t t' : Tape} {c : Cursor}

namespace Shows

lemma with_rest {us : List Token} (h : t.Shows c) (hc : c.rest = us) :
    t.Shows { c with rest := us } := by
  subst hc
  exact h

lemma peek (h : t.Shows c) : t.peek? = some c.front := by
  unfold peek? Cursor.front
  rw [h.rest, List.headD_eq_head?_getD, List.head?_drop]
  rcases h.bound.lt_or_eq with hlt | heq
  · rw [getElem?_of_beforeEnd hlt, List.getElem?_eq_getElem hlt]
    rfl
  · rw [heq, h.stop, List.getElem?_eq_none le_rfl]
    rfl

lemma front_isEof (h : t.Shows c) : c.front.kind.isEof = c.rest.isEmpty := by
  cases hc : c.rest with
  | nil => simp [Cursor.front, hc, c.stop_kind, Kind.isEof]
  | cons x us =>
    have hx : x ∈ beforeEnd t.tokens := List.mem_of_mem_drop (h.rest ▸ hc ▸ List.mem_cons_self ..)
    simpa [Cursor.front, hc] using not_isEof_of_mem_beforeEnd hx

lemma atEnd (h : t.Shows c) : t.atEnd? = some c.rest.isEmpty := by
  rw [atEnd?, h.peek, Option.map_some, h.front_isEof]

lemma check (h : t.Shows c) (p : Kind → Bool) :
    t.check? p = some (match c.rest with
      | [] => false
      | x :: _ => p x.kind) := by
  rw [check?, h.atEnd, h.peek]
  cases hc : c.rest with
  | nil => rfl
  | cons x us => simp [Cursor.front, hc]

lemma exists_of_check {p : Kind → Bool} (h : t.Shows c) (hp : t.check? p = some true) :
    ∃ x us, c.rest = x :: us ∧ p x.kind = true := by
  rw [h.check] at hp
  cases hc : c.rest with
  | nil => simp [hc] at hp
  | cons x us => exact ⟨x, us, rfl, by simpa [hc] using hp⟩

lemma not_of_check {p : Kind → Bool} {x : Token} {us : List Token} (h : t.Shows c)
    (hp : t.check? p = some false) (hc : c.rest = x :: us) : p x.kind = false := by
  rw [h.check] at hp
  simpa [hc] using hp

lemma exists_of_not_atEnd (h : t.Shows c) (hend : t.atEnd? = some false) :
    ∃ x us, c.rest = x :: us := by
  rw [h.atEnd] at hend
  exact List.exists_cons_of_ne_nil (by simpa using hend)

lemma current_lt {x : Token} {us : List Token} (h : t.Shows c) (hc : c.rest = x :: us) :
    t.current < (beforeEnd t.tokens).length := by
  have hlen := congrArg List.length (h.rest.symm.trans hc)
  rw [List.length_drop, List.length_cons] at hlen
  omega

/-- What a tape shows one place on. -/
lemma next {x : Token} {us : List Token} (h : t.Shows c) (hc : c.rest = x :: us) :
    ({ t with current := t.current + 1 } : Tape).Shows { c with rest := us } where
  rest := by
    rw [← List.tail_drop, ← h.rest, hc, List.tail_cons]
  bound := h.current_lt hc
  stop := h.stop
  nextId := h.nextId
  complaints := h.complaints

/-- The token before a place within the input is in range. -/
lemma exists_previous (h : t.Shows c) : ∃ last, t.previous? = some last := by
  have hlt : (beforeEnd t.tokens).length < t.tokens.length :=
    (List.getElem?_eq_some_iff.mp h.stop).1
  have hb := h.bound
  exact ⟨_, List.getElem?_eq_getElem (by omega)⟩

lemma advance_end (h : t.Shows c) (hc : c.rest = []) : ∃ last, t.advance? = some (last, t) := by
  obtain ⟨last, hlast⟩ := h.exists_previous
  refine ⟨last, ?_⟩
  simp [advance?, h.atEnd, hc, hlast]

lemma advance {x : Token} {us : List Token} (h : t.Shows c) (hc : c.rest = x :: us) :
    t.advance? = some (x, { t with current := t.current + 1 }) := by
  have hx := h.peek
  rw [Cursor.front, hc, List.headD_cons] at hx
  have hprev : ({ t with current := t.current + 1 } : Tape).previous? = some x := hx
  simp [advance?, h.atEnd, hc, hprev]

lemma exists_advance (h : t.Shows c) : ∃ passed moved, t.advance? = some (passed, moved) := by
  cases hc : c.rest with
  | nil =>
    obtain ⟨last, hlast⟩ := h.advance_end hc
    exact ⟨_, _, hlast⟩
  | cons x us => exact ⟨_, _, h.advance hc⟩

/-- Moving on shows the tail of what was shown, within the same tokens. -/
lemma advanced {passed : Token} (h : t.Shows c) (ht : t.advance? = some (passed, t')) :
    t'.Shows { c with rest := c.rest.tail } ∧ t'.tokens = t.tokens ∧
      ∀ last us, c.rest = last :: us → passed = last ∧ t'.previous? = some last := by
  cases hc : c.rest with
  | nil =>
    obtain ⟨last, hlast⟩ := h.advance_end hc
    obtain ⟨-, rfl⟩ : last = passed ∧ t = t' := by simpa using hlast.symm.trans ht
    exact ⟨h.with_rest hc, rfl, nofun⟩
  | cons x us =>
    obtain ⟨rfl, rfl⟩ : x = passed ∧ _ = t' := by simpa using (h.advance hc).symm.trans ht
    refine ⟨h.next hc, rfl, ?_⟩
    rintro last us ⟨⟩
    have hx := h.peek
    rw [Cursor.front, hc, List.headD_cons] at hx
    exact ⟨rfl, hx⟩

end Shows

/-! ### Within the input -/

/-- The places are not past the first end of input. -/
def Within (tokens : List Token) (places : List ℕ) : Prop :=
  ∀ i ∈ places, i ≤ (beforeEnd tokens).length

lemma Within.append {tokens : List Token} {places places' : List ℕ} (h : Within tokens places)
    (h' : Within tokens places') : Within tokens (places ++ places') :=
  fun i hi => (List.mem_append.mp hi).elim (h i) (h' i)

lemma Shows.within (h : t.Shows c) : Within t.tokens [t.current] := by
  simpa [Within] using h.bound

lemma Shows.within_cons {places : List ℕ} (h : t.Shows c) (hp : Within t.tokens places) :
    Within t.tokens (t.current :: places) :=
  h.within.append hp

/-- Tokens are passed on a tape as they are on a cursor. -/
lemma Skips.shows {places : List ℕ} (hs : t.Skips places t') (h : t.Shows c) (last : Token)
    (hlast : t.previous? = some last ∨ c.rest = []) :
    t'.Shows { c with rest := resumeAfter last c.rest } ∧ t'.tokens = t.tokens ∧
      Within t.tokens places := by
  induction hs generalizing c last with
  | atEnd hend =>
    have hc : c.rest = [] := by simpa [h.atEnd] using hend
    refine ⟨?_, rfl, h.within⟩
    rw [hc]
    exact h.with_rest hc
  | @resumes t last' next hend hlast' hnext hstart =>
    obtain ⟨x, us, hc⟩ := h.exists_of_not_atEnd hend
    obtain rfl : last' = last := by simpa [hc, hlast'] using hlast
    obtain rfl : x = next := by simpa [h.peek, Cursor.front, hc] using hnext
    refine ⟨?_, rfl, h.within⟩
    rw [hc, resumeAfter, if_pos hstart, ← hc]
    exact h
  | @passes t t' t'' last' next passed places hend hlast' hnext hstart hpassed hrest ih =>
    obtain ⟨x, us, hc⟩ := h.exists_of_not_atEnd hend
    obtain rfl : last' = last := by simpa [hc, hlast'] using hlast
    obtain rfl : x = next := by simpa [h.peek, Cursor.front, hc] using hnext
    obtain ⟨hnext, htokens, hback⟩ := h.advanced hpassed
    obtain ⟨hend, htokens', hplaces⟩ := ih hnext x (.inl (hback x us hc).2)
    rw [htokens] at htokens' hplaces
    refine ⟨?_, htokens', h.within_cons hplaces⟩
    simpa [hc, resumeAfter, hstart] using hend

/-- What has ended on a tape has ended so on a cursor, and the tape shows where. -/
inductive Result.Shows (tokens : List Token) : Result α → Outcome α → Prop
  | done {a : α} {t : Tape} {c : Cursor} (h : t.Shows c) (ht : t.tokens = tokens) :
      Shows tokens (.done a t) (.done a c)
  | failed {e : Complaint} {t : Tape} {c : Cursor} (h : t.Shows c) (ht : t.tokens = tokens) :
      Shows tokens (.failed e t) (.failed e c)

lemma Result.Shows.exists_done {tokens : List Token} {a : α} {t : Tape} {o : Outcome α}
    (h : (Result.done a t).Shows tokens o) :
    ∃ c, o = .done a c ∧ t.Shows c ∧ t.tokens = tokens := by
  cases h with
  | done h ht => exact ⟨_, rfl, h, ht⟩

lemma Result.Shows.exists_failed {tokens : List Token} {e : Complaint} {t : Tape} {o : Outcome α}
    (h : (Result.failed e t).Shows tokens o) :
    ∃ c, o = .failed e c ∧ t.Shows c ∧ t.tokens = tokens := by
  cases h with
  | failed h ht => exact ⟨_, rfl, h, ht⟩

lemma Result.Shows.ne_exhausted {tokens : List Token} {r : Result α} {o : Outcome α}
    (h : r.Shows tokens o) : o ≠ .exhausted := by
  cases h <;> nofun

/-- What a rule that fails on a tape goes on with has passed tokens as on a cursor. -/
lemma Shows.resumed {moved : Tape} {passed : Token} {places : List ℕ} (h : t.Shows c)
    (hpassed : t.advance? = some (passed, moved)) (hskips : Skips moved places t') :
    t'.Shows { c with rest := resume c.rest } ∧ t'.tokens = t.tokens ∧
      Within t.tokens places := by
  obtain ⟨hmoved, htokens, hback⟩ := h.advanced hpassed
  rw [← htokens]
  cases hc : c.rest with
  | nil =>
    rw [hc] at hmoved
    exact hskips.shows hmoved passed (.inr rfl)
  | cons x us =>
    rw [hc] at hmoved
    exact hskips.shows hmoved x (.inl (hback x us hc).2)

/-- A rule does on a tape what it does on a cursor that the tape shows, and goes by way of places
that are not past the first end of input. -/
theorem Runs.shows {r : Rule α} {places : List ℕ} {o : Result α} (hr : Runs r t places o)
    (h : t.Shows c) : o.Shows t.tokens (r c) ∧ Within t.tokens places := by
  induction hr generalizing c with
  | pure a => exact ⟨.done h rfl, h.within⟩
  | bind hr hf ihr ihf =>
    obtain ⟨hc, hplaces⟩ := ihr h
    obtain ⟨c', hc', h', htokens⟩ := hc.exists_done
    obtain ⟨hc₂, hplaces₂⟩ := ihf h'
    rw [htokens] at hc₂ hplaces₂
    rw [Rule.bind_apply, hc']
    exact ⟨hc₂, hplaces.append hplaces₂⟩
  | bind_failed hr ih =>
    obtain ⟨hc, hplaces⟩ := ih h
    obtain ⟨c', hc', h', htokens⟩ := hc.exists_failed
    rw [Rule.bind_apply, hc']
    exact ⟨.failed h' htokens, hplaces⟩
  | peek hnext =>
    obtain rfl := Option.some.inj (h.peek.symm.trans hnext)
    exact ⟨.done h rfl, h.within⟩
  | atEnd hb =>
    obtain rfl := Option.some.inj (h.atEnd.symm.trans hb)
    exact ⟨.done h rfl, h.within⟩
  | sees hb =>
    obtain rfl := Option.some.inj ((h.check _).symm.trans hb)
    exact ⟨.done h rfl, h.within⟩
  | advance ht =>
    obtain ⟨h', htokens, -⟩ := h.advanced ht
    exact ⟨.done h' htokens, h.within_cons (htokens ▸ h'.within)⟩
  | accept hp ht =>
    obtain ⟨h', htokens, hback⟩ := h.advanced ht
    obtain ⟨x, us, hc, hx⟩ := h.exists_of_check hp
    obtain rfl := (hback x us hc).1
    refine ⟨?_, h.within_cons (htokens ▸ h'.within)⟩
    simp only [Grammar.accept, hc, hx, if_true, List.tail_cons] at h' ⊢
    exact .done h' htokens
  | accept_not hp =>
    refine ⟨?_, h.within⟩
    unfold Grammar.accept
    cases hc : c.rest with
    | nil => exact .done h rfl
    | cons x us =>
      simp only [h.not_of_check hp hc, Bool.false_eq_true, if_false]
      exact .done h rfl
  | expect hp ht =>
    obtain ⟨h', htokens, hback⟩ := h.advanced ht
    obtain ⟨x, us, hc, hx⟩ := h.exists_of_check hp
    obtain rfl := (hback x us hc).1
    refine ⟨?_, h.within_cons (htokens ▸ h'.within)⟩
    simp only [Grammar.expect, hc, hx, if_true, List.tail_cons] at h' ⊢
    exact .done h' htokens
  | expect_not hp hnext =>
    obtain rfl := Option.some.inj (h.peek.symm.trans hnext)
    refine ⟨?_, h.within⟩
    unfold Grammar.expect Cursor.front
    cases hc : c.rest with
    | nil => exact .failed h rfl
    | cons x us =>
      simp only [h.not_of_check hp hc, Bool.false_eq_true, if_false]
      exact .failed h rfl
  | fail hnext =>
    obtain rfl := Option.some.inj (h.peek.symm.trans hnext)
    exact ⟨.failed h rfl, h.within⟩
  | report x f =>
    exact ⟨.done ⟨h.rest, h.bound, h.stop, h.nextId, congrArg _ h.complaints⟩ rfl, h.within⟩
  | freshId =>
    rw [h.nextId]
    exact ⟨.done ⟨h.rest, h.bound, h.stop, rfl, h.complaints⟩ rfl, h.within⟩
  | recovering hr ih =>
    obtain ⟨hc, hplaces⟩ := ih h
    obtain ⟨c', hc', h', htokens⟩ := hc.exists_done
    rw [Grammar.recovering, hc']
    exact ⟨.done h' htokens, hplaces⟩
  | recovering_failed hr hpassed hskips ih =>
    obtain ⟨hc, hplaces⟩ := ih h
    obtain ⟨c', hc', h', htokens⟩ := hc.exists_failed
    obtain ⟨h₂, htokens₂, hplaces₂⟩ := h'.resumed hpassed hskips
    rw [htokens] at htokens₂ hplaces₂
    rw [Grammar.recovering, hc']
    refine ⟨.done ⟨h₂.rest, h₂.bound, h₂.stop, h₂.nextId, ?_⟩ htokens₂, hplaces.append hplaces₂⟩
    exact congrArg _ h₂.complaints

/-! ### No look out of range -/

lemma Shows.exists_skips (h : t.Shows c) : ∃ places t', Skips t places t' := by
  induction hc : c.rest generalizing t c with
  | nil => exact ⟨_, _, .atEnd (by rw [h.atEnd, hc]; rfl)⟩
  | cons x us ih =>
    have hend : t.atEnd? = some false := by rw [h.atEnd, hc]; rfl
    obtain ⟨last, hlast⟩ := h.exists_previous
    cases hstart : last.kind.isSymbol .semicolon || startsStatement c.front.kind with
    | true => exact ⟨_, _, .resumes hend hlast h.peek hstart⟩
    | false =>
      obtain ⟨places, t', hrest⟩ := ih (h.next hc) rfl
      exact ⟨_, _, .passes hend hlast h.peek hstart (h.advance hc) hrest⟩

/-- A rule can be carried out on a tape if it does not run out on a cursor that the tape shows. -/
theorem Shows.exists_runs {r : Rule α} (hr : r.Composed) (h : t.Shows c)
    (hne : r c ≠ .exhausted) : ∃ places o, Runs r t places o := by
  induction hr generalizing t c with
  | pure a => exact ⟨_, _, .pure a⟩
  | bind hr hf ihr ihf =>
    rw [Rule.bind_apply] at hne
    obtain ⟨places, o, hruns⟩ := ihr h (by rintro he; simp [he] at hne)
    cases o with
    | failed e t' => exact ⟨_, _, .bind_failed hruns⟩
    | done a t' =>
      obtain ⟨c', hc', h', -⟩ := (hruns.shows h).1.exists_done
      rw [hc'] at hne
      obtain ⟨places', o, hrest⟩ := ihf a h' hne
      exact ⟨_, _, .bind hruns hrest⟩
  | recovering hr ih =>
    obtain ⟨places, o, hruns⟩ := ih h (by rintro he; simp [Grammar.recovering, he] at hne)
    cases o with
    | done a t' => exact ⟨_, _, .recovering hruns⟩
    | failed e t' =>
      obtain ⟨c', hc', h', -⟩ := (hruns.shows h).1.exists_failed
      obtain ⟨passed, moved, hpassed⟩ := h'.exists_advance
      obtain ⟨places', t'', hskips⟩ := (h'.advanced hpassed).1.exists_skips
      exact ⟨_, _, .recovering_failed hruns hpassed hskips⟩
  | peek => exact ⟨_, _, .peek h.peek⟩
  | atEnd => exact ⟨_, _, .atEnd h.atEnd⟩
  | sees p => exact ⟨_, _, .sees (h.check p)⟩
  | advance =>
    obtain ⟨passed, moved, hpassed⟩ := h.exists_advance
    exact ⟨_, _, .advance hpassed⟩
  | accept p =>
    obtain ⟨passed, moved, hpassed⟩ := h.exists_advance
    obtain ⟨b, hb⟩ : ∃ b, t.check? p = some b := ⟨_, h.check p⟩
    cases b with
    | true => exact ⟨_, _, .accept hb hpassed⟩
    | false => exact ⟨_, _, .accept_not hb⟩
  | expect p f =>
    obtain ⟨passed, moved, hpassed⟩ := h.exists_advance
    obtain ⟨b, hb⟩ : ∃ b, t.check? p = some b := ⟨_, h.check p⟩
    cases b with
    | true => exact ⟨_, _, .expect hb hpassed⟩
    | false => exact ⟨_, _, .expect_not hb h.peek⟩
  | fail f => exact ⟨_, _, .fail h.peek⟩
  | report x f => exact ⟨_, _, .report x f⟩
  | freshId => exact ⟨_, _, .freshId⟩
  | exhausted => exact absurd rfl hne

end Tape

end Lox.Grammar
