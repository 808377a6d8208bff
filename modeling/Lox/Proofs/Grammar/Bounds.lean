import Mathlib.Data.List.TakeWhile
import Lox.Grammar.Read
import Lox.Proofs.Grammar.Tape

/-!
Only the tokens up to the first end of input matter, and reading stays among them.

An input is read on a tape as it is read on a cursor. So each place that reading comes by is in
range, whether or not the tokens end as they should, and each round of a loop over declarations
moves the place on.
-/

namespace Lox.Grammar

namespace Tape

variable {tokens : List Token} {firstId : NodeId}

/-! ### Loading -/

/-- What is loaded begins with the tokens that count and the end of input after them. -/
lemma exists_tokens_load (tokens : List Token) (firstId : NodeId) :
    ∃ more, (load tokens firstId).tokens = beforeEnd tokens ++ stopToken tokens :: more := by
  unfold load
  dsimp only
  split
  · rename_i hlast
    obtain ⟨t, ht, hkind⟩ := (Option.any_eq_true ..).mp hlast
    exact exists_eq_beforeEnd_append ⟨t, List.mem_of_getLast? ht, hkind⟩
  · by_cases hended : Ended tokens
    · obtain ⟨more, hmore⟩ := exists_eq_beforeEnd_append hended
      exact ⟨_, by rw [← List.cons_append, ← List.append_assoc, ← hmore]⟩
    · have hall : ∀ t ∈ tokens, t.kind.isEof = false := by
        intro t ht
        by_contra hkind
        exact hended ⟨t, ht, by simpa using hkind⟩
      have hbefore : beforeEnd tokens = tokens :=
        List.takeWhile_eq_self_iff.mpr fun t ht => by simp [hall t ht]
      have hfind : tokens.find? (·.kind.isEof) = none :=
        List.find?_eq_none.mpr fun t ht => by simp [hall t ht]
      exact ⟨[], by rw [hbefore, stopToken, hfind]⟩

lemma beforeEnd_load : beforeEnd (load tokens firstId).tokens = beforeEnd tokens := by
  obtain ⟨more, hmore⟩ := exists_tokens_load tokens firstId
  rw [hmore]
  refine beforeEnd_append (fun t ht hkind => ?_) (stopToken_kind tokens)
  have hnot := not_isEof_of_mem_beforeEnd ht
  simp [hkind, Kind.isEof] at hnot

/-- The first end of input is in range. -/
lemma getElem?_load :
    (load tokens firstId).tokens[(beforeEnd tokens).length]? = some (stopToken tokens) := by
  obtain ⟨more, hmore⟩ := exists_tokens_load tokens firstId
  rw [hmore, List.getElem?_append_right le_rfl, Nat.sub_self]
  rfl

lemma shows_load (tokens : List Token) (firstId : NodeId) :
    (load tokens firstId).Shows (.start tokens firstId) where
  rest := by rw [beforeEnd_load]; rfl
  bound := Nat.zero_le _
  stop := by rw [beforeEnd_load]; exact getElem?_load
  nextId := rfl
  complaints := rfl

/-! ### Whole inputs -/

/-- The tree, unless there are complaints. -/
def finish {α : Type} (t : Tape) (a : α) : Parsed α :=
  { result := if t.complaints.isEmpty then .ok a else .error t.complaints.reverse
    nextId := t.nextId }

/-- The complaints, of which the last stopped the reading. -/
def stopped {α : Type} (t : Tape) (e : Complaint) : Parsed α :=
  ⟨.error (e :: t.complaints).reverse, t.nextId⟩

/-- A rule has not read everything: it has failed, or its tape is not at the end. -/
inductive Unfinished {α : Type} : Result α → Tape → Prop
  | done {a : α} {t : Tape} (h : t.atEnd? = some false) : Unfinished (.done a t) t
  | failed {e : Complaint} {t : Tape} : Unfinished (.failed e t) t

/-- Tokens are read on a tape in a mode, by way of some places. A line that is not a single
expression is read once more from the front, without the complaints of the attempt. -/
inductive ReadsInput (tokens : List Token) (firstId : NodeId) :
    Mode → List ℕ → Parsed Input → Prop
  | program {n : ℕ} {places : List ℕ} {body : List Stmt} {t : Tape}
      (h : Runs (declarations n []) (load tokens firstId) places (.done body t)) :
      ReadsInput tokens firstId .program places (t.finish (.statements body))
  | expression {n : ℕ} {places : List ℕ} {e : Expr} {t : Tape}
      (h : Runs (Grammar.expression n) (load tokens firstId) places (.done e t))
      (hend : t.atEnd? = some true) :
      ReadsInput tokens firstId .expression places (t.finish (.expression e))
  | more {n : ℕ} {places : List ℕ} {e : Expr} {t : Tape} {next : Token}
      (h : Runs (Grammar.expression n) (load tokens firstId) places (.done e t))
      (hend : t.atEnd? = some false) (hnext : t.peek? = some next) :
      ReadsInput tokens firstId .expression places (t.stopped (complaint next .expectedEnd))
  | failed {n : ℕ} {places : List ℕ} {e : Complaint} {t : Tape}
      (h : Runs (Grammar.expression n) (load tokens firstId) places (.failed e t)) :
      ReadsInput tokens firstId .expression places (t.stopped e)
  | line {n : ℕ} {places : List ℕ} {e : Expr} {t : Tape}
      (h : Runs (Grammar.expression n) (load tokens firstId) places (.done e t))
      (hend : t.atEnd? = some true) :
      ReadsInput tokens firstId .line places (t.finish (.expression e))
  | rewound {n m : ℕ} {places places' : List ℕ} {o : Result Expr} {body : List Stmt} {t t' : Tape}
      (h : Runs (Grammar.expression n) (load tokens firstId) places o) (ho : Unfinished o t)
      (hbody : Runs (declarations m []) { t with current := 0, complaints := [] } places'
        (.done body t')) :
      ReadsInput tokens firstId .line (places ++ places') (t'.finish (.statements body))

variable {t t' : Tape} {c : Cursor}

lemma Shows.finish_eq {α : Type} (h : t.Shows c) (a : α) : t.finish a = c.finish a := by
  rw [finish, Cursor.finish, h.nextId, h.complaints]

lemma Shows.stopped_eq {α : Type} (h : t.Shows c) (e : Complaint) :
    (t.stopped e : Parsed α) = c.stopped e := by
  rw [stopped, Cursor.stopped, h.nextId, h.complaints]

/-- A tape that goes back to the front without its complaints shows what it showed then. -/
lemma Shows.rewind (h : t.Shows c) (ht : t.tokens = (load tokens firstId).tokens) :
    ({ t with current := 0, complaints := [] } : Tape).Shows (.start tokens c.nextId) where
  rest := by rw [ht, beforeEnd_load]; rfl
  bound := Nat.zero_le _
  stop := by rw [ht, beforeEnd_load]; exact getElem?_load
  nextId := h.nextId
  complaints := rfl

section
variable {n : ℕ} {places : List ℕ} {body : List Stmt} {o : Result Expr} {p : Parsed Input}
  {mode : Mode}

lemma within_load : Within (load tokens firstId).tokens places ↔ Within tokens places := by
  rw [Within, Within, beforeEnd_load]

/-- What an expression comes to on a tape at the front is what it comes to on a cursor. -/
lemma Runs.expression_shows (h : Runs (Grammar.expression n) (load tokens firstId) places o) :
    o.Shows (load tokens firstId).tokens
        (Grammar.expression (allowance tokens) (.start tokens firstId)) ∧
      Within tokens places := by
  obtain ⟨ho, hplaces⟩ := h.shows (shows_load tokens firstId)
  rw [expression_of_enough tokens firstId ho.ne_exhausted]
  exact ⟨ho, within_load.mp hplaces⟩

lemma Runs.program_eq (h : t.Shows (.start tokens firstId))
    (hbody : Runs (declarations n []) t places (.done body t')) :
    (program tokens firstId).map Input.statements = t'.finish (.statements body) := by
  obtain ⟨c, hc, h', -⟩ := (hbody.shows h).1.exists_done
  rw [program_of_done hc, h'.finish_eq]
  unfold Cursor.finish Parsed.map
  split <;> rfl

lemma Shows.rest_isEmpty {b : Bool} (h : t.Shows c) (hend : t.atEnd? = some b) :
    c.rest.isEmpty = b :=
  Option.some.inj (h.atEnd.symm.trans hend)

/-- A line that an expression does not span is read as a program, from the front. -/
lemma Unfinished.line_eq (hunfinished : Unfinished o t)
    (ho : o.Shows (load tokens firstId).tokens
      (Grammar.expression (allowance tokens) (.start tokens firstId))) :
    ∃ i, ({ t with current := 0, complaints := [] } : Tape).Shows (.start tokens i) ∧
      t.tokens = (load tokens firstId).tokens ∧
        Grammar.line tokens firstId = (Grammar.program tokens i).map .statements := by
  cases hunfinished with
  | done hend =>
    obtain ⟨c, hc, h, htokens⟩ := ho.exists_done
    refine ⟨c.nextId, h.rewind htokens, htokens, ?_⟩
    rw [Grammar.line, hc]
    simp only [h.rest_isEmpty hend, Bool.false_eq_true, if_false]
    rfl
  | failed =>
    obtain ⟨c, hc, h, htokens⟩ := ho.exists_failed
    refine ⟨c.nextId, h.rewind htokens, htokens, ?_⟩
    rw [Grammar.line, hc]
    rfl

/-- What is read on a tape is what is read on a cursor, and no place is past the first end of
input. -/
theorem ReadsInput.eq (h : ReadsInput tokens firstId mode places p) :
    p = inputOf mode tokens firstId ∧ Within tokens places := by
  cases h with
  | program h =>
    have hplaces := (h.shows (shows_load tokens firstId)).2
    exact ⟨(h.program_eq (shows_load tokens firstId)).symm, within_load.mp hplaces⟩
  | expression h hend =>
    obtain ⟨ho, hplaces⟩ := h.expression_shows
    obtain ⟨c, hc, h', -⟩ := ho.exists_done
    refine ⟨?_, hplaces⟩
    rw [inputOf, singleExpression, hc]
    simp only [h'.rest_isEmpty hend, if_true, h'.finish_eq, Cursor.finish, Parsed.map]
    split <;> rfl
  | more h hend hnext =>
    obtain ⟨ho, hplaces⟩ := h.expression_shows
    obtain ⟨c, hc, h', -⟩ := ho.exists_done
    refine ⟨?_, hplaces⟩
    obtain rfl := Option.some.inj (h'.peek.symm.trans hnext)
    rw [inputOf, singleExpression, hc]
    simp only [h'.rest_isEmpty hend, Bool.false_eq_true, if_false, h'.stopped_eq]
    rfl
  | failed h =>
    obtain ⟨ho, hplaces⟩ := h.expression_shows
    obtain ⟨c, hc, h', -⟩ := ho.exists_failed
    refine ⟨?_, hplaces⟩
    rw [inputOf, singleExpression, hc]
    simp only [h'.stopped_eq]
    rfl
  | line h hend =>
    obtain ⟨ho, hplaces⟩ := h.expression_shows
    obtain ⟨c, hc, h', -⟩ := ho.exists_done
    refine ⟨?_, hplaces⟩
    rw [inputOf, Grammar.line, hc]
    simp only [h'.rest_isEmpty hend, if_true, h'.finish_eq]
  | rewound h hunfinished hbody =>
    obtain ⟨ho, hplaces⟩ := h.expression_shows
    obtain ⟨i, hfront, htokens, hline⟩ := hunfinished.line_eq ho
    have hplaces' := (hbody.shows hfront).2
    rw [htokens, within_load] at hplaces'
    refine ⟨?_, hplaces.append hplaces'⟩
    rw [inputOf, hline, hbody.program_eq hfront]

end

/-! ### Every input is read -/

lemma Shows.exists_program (h : t.Shows (.start tokens firstId)) :
    ∃ places body t', Runs (declarations (allowance tokens) []) t places (.done body t') := by
  obtain ⟨places, o, hruns⟩ :=
    h.exists_runs (composed_declarations _ _) (declarations_not_exhausted tokens firstId)
  cases o with
  | done body t' => exact ⟨places, body, t', hruns⟩
  | failed e t' =>
    obtain ⟨c, hc, -⟩ := (hruns.shows h).1.exists_failed
    exact absurd hc (declarations_ne_failed _ _ _ _ _)

theorem exists_readsInput (mode : Mode) (tokens : List Token) (firstId : NodeId) :
    ∃ places, ReadsInput tokens firstId mode places (inputOf mode tokens firstId) := by
  have hload := shows_load tokens firstId
  obtain ⟨places, o, hruns⟩ :=
    hload.exists_runs (composed_expression _) (expression_not_exhausted tokens firstId)
  suffices ∃ places p, ReadsInput tokens firstId mode places p by
    obtain ⟨places, p, hp⟩ := this
    exact ⟨places, hp.eq.1 ▸ hp⟩
  cases mode with
  | program =>
    obtain ⟨places, body, t', hbody⟩ := hload.exists_program
    exact ⟨_, _, .program hbody⟩
  | expression =>
    cases o with
    | failed e t => exact ⟨_, _, .failed hruns⟩
    | done e t =>
      obtain ⟨c, -, h', -⟩ := hruns.expression_shows.1.exists_done
      cases hend : c.rest.isEmpty with
      | true => exact ⟨_, _, .expression hruns (h'.atEnd.trans (congrArg some hend))⟩
      | false => exact ⟨_, _, .more hruns (h'.atEnd.trans (congrArg some hend)) h'.peek⟩
  | line =>
    have rewound {t : Tape} (ht : Unfinished o t) :
        ∃ places p, ReadsInput tokens firstId .line places p := by
      obtain ⟨i, hfront, -⟩ := ht.line_eq hruns.expression_shows.1
      obtain ⟨places', body, t', hbody⟩ := hfront.exists_program
      exact ⟨_, _, .rewound hruns ht hbody⟩
    cases o with
    | failed e t => exact rewound .failed
    | done e t =>
      obtain ⟨c, -, h', -⟩ := hruns.expression_shows.1.exists_done
      cases hend : c.rest.isEmpty with
      | true => exact ⟨_, _, .line hruns (h'.atEnd.trans (congrArg some hend))⟩
      | false => exact rewound (.done (h'.atEnd.trans (congrArg some hend)))

/-! ### Rounds of a loop over declarations -/

/-- A place before the first end of input shows a cursor that is not at its end. -/
lemma exists_shows (ht : t.tokens = (load tokens firstId).tokens)
    (hlt : t.current < (beforeEnd tokens).length) : ∃ c, t.Shows c ∧ c.rest ≠ [] := by
  refine ⟨⟨(beforeEnd tokens).drop t.current, stopToken tokens, stopToken_kind tokens, t.nextId,
    t.complaints⟩, ⟨?_, ?_, ?_, rfl, rfl⟩, ?_⟩
  · rw [ht, beforeEnd_load]
  · rw [ht, beforeEnd_load]
    exact hlt.le
  · rw [ht, beforeEnd_load]
    exact getElem?_load
  · simpa using hlt

/-- A declaration passes a token, also when it is given up. -/
lemma declaration_shortens {n : ℕ} {inLoop : Bool} {c c' : Cursor} {s : Option Stmt}
    (h : declaration n inLoop c = .done s c') (hc : c.rest ≠ []) :
    c'.rest.length < c.rest.length := by
  have hmono : Monotone fun n => declaration n inLoop :=
    monotone_nat_of_le_succ fun n => (stmtGrows n).declaration inLoop
  have hle := hmono (Nat.le_add_right n (16 * c.rest.length + 15))
  have hends := (stmtEnds (n + (16 * c.rest.length + 15))).declaration inLoop c (by omega) hc
  unfold Rule.EndsAt at hends
  rw [show declaration _ inLoop c = _ from Rule.done_of_le hle h] at hends
  exact hends.1

/-- A round of a loop over declarations, from a place before the first end of input, ends and
moves the place on. -/
theorem declaration_moves (ht : t.tokens = (load tokens firstId).tokens)
    (hlt : t.current < (beforeEnd tokens).length) (inLoop : Bool) :
    (∀ n, allowance tokens ≤ n → ∃ places o, Runs (declaration n inLoop) t places o) ∧
      ∀ n places o, Runs (declaration n inLoop) t places o →
        ∃ s t', o = .done s t' ∧ t.current < t'.current := by
  obtain ⟨c, hc, hne⟩ := exists_shows ht hlt
  constructor
  · intro n hn
    have hlen : c.rest.length ≤ tokens.length := by
      rw [hc.rest, ht, beforeEnd_load, List.length_drop]
      exact (Nat.sub_le ..).trans (List.takeWhile_sublist _).length_le
    have hends := (stmtEnds n).declaration inLoop c (by unfold allowance at hn; omega) hne
    exact hc.exists_runs ((stmtComposed n).declaration inLoop) hends.ne_exhausted
  · intro n places o ho
    have hshows := (ho.shows hc).1
    cases o with
    | failed e t' =>
      obtain ⟨c', hc', -⟩ := hshows.exists_failed
      exact absurd hc' (declaration_ne_failed _ _ _ _ _)
    | done s t' =>
      obtain ⟨c', hdone, hc', htokens⟩ := hshows.exists_done
      refine ⟨s, t', rfl, ?_⟩
      have hless := declaration_shortens hdone hne
      rw [hc.rest, hc'.rest, htokens, List.length_drop, List.length_drop] at hless
      omega

/-! ### The end of input -/

/-- The place of the first end of input. -/
def firstEnd (t : Tape) : ℕ := t.tokens.findIdx (·.kind.isEof)

lemma firstEnd_load : (load tokens firstId).firstEnd = (beforeEnd tokens).length := by
  obtain ⟨more, hmore⟩ := exists_tokens_load tokens firstId
  have hstop : (stopToken tokens).kind.isEof = true := by rw [stopToken_kind]; rfl
  have hnone : ¬ (beforeEnd tokens).findIdx (·.kind.isEof) < (beforeEnd tokens).length := by
    rw [List.findIdx_lt_length]
    rintro ⟨t, ht, hkind⟩
    exact Bool.false_ne_true ((not_isEof_of_mem_beforeEnd ht).symm.trans hkind)
  rw [firstEnd, hmore, List.findIdx_append, if_neg hnone, List.findIdx_cons, hstop]
  exact Nat.zero_add _

end Tape

section
variable {tokens us : List Token}

lemma program_congr (h : ∀ i, Cursor.start tokens i = Cursor.start us i) (firstId : NodeId) :
    program tokens firstId = program us firstId := by
  obtain ⟨body, c, hbody⟩ := exists_declarations tokens firstId
  rw [program_of_done hbody, program_of_done ((h firstId) ▸ hbody)]

/-- What is read depends on the tokens before the end of input and on that end. -/
lemma inputOf_congr (h : ∀ i, Cursor.start tokens i = Cursor.start us i) (mode : Mode)
    (firstId : NodeId) : inputOf mode tokens firstId = inputOf mode us firstId := by
  have hexpression : expression (allowance tokens) (.start tokens firstId) =
      expression (allowance us) (.start us firstId) := by
    rw [h, expression_of_enough us firstId]
    exact h firstId ▸ expression_not_exhausted tokens firstId
  cases mode with
  | program => rw [inputOf, inputOf, program_congr h]
  | expression => rw [inputOf, inputOf, singleExpression, singleExpression, hexpression]
  | line =>
    rw [inputOf, inputOf, line, line, hexpression]
    simp only [program_congr h]

end

/-- Only the tokens through the first end of input matter. -/
theorem inputOf_throughEnd (mode : Mode) (tokens : List Token) (firstId : NodeId) :
    inputOf mode (throughEnd tokens) firstId = inputOf mode tokens firstId := by
  refine inputOf_congr (fun i => ?_) mode firstId
  exact start_eq rfl (stopToken_kind tokens) (fun t => not_isEof_of_mem_beforeEnd) i

open Tape in
/-- Only the tokens through the first end of input matter, which is added if there is none, and no
place past it is looked at. **Result**: reading does not depend on what comes after. **Range**:
reading can be carried out on a tape with all the tokens, so that each look is in range, and every
way to do so has the same result and stays at or before the first end of input. **Progress**: a
round of a loop over declarations that starts before it ends, and moves the place on. -/
theorem reading_within_tokens (mode : Mode) (tokens : List Token) (firstId : NodeId) :
    inputOf mode tokens firstId = inputOf mode (throughEnd tokens) firstId ∧
      (∃ places, ReadsInput tokens firstId mode places (inputOf mode tokens firstId)) ∧
      (∀ places p, ReadsInput tokens firstId mode places p → p = inputOf mode tokens firstId ∧
        ∀ i ∈ places, i ≤ (load tokens firstId).firstEnd) ∧
      ∀ t : Tape, t.tokens = (load tokens firstId).tokens →
        t.current < (load tokens firstId).firstEnd → ∀ inLoop,
          (∀ n, allowance tokens ≤ n → ∃ places o, Runs (declaration n inLoop) t places o) ∧
          ∀ n places o, Runs (declaration n inLoop) t places o →
            ∃ s t', o = .done s t' ∧ t.current < t'.current := by
  rw [firstEnd_load]
  exact ⟨(inputOf_throughEnd mode tokens firstId).symm, exists_readsInput mode tokens firstId,
    fun _ _ h => h.eq, fun _ => declaration_moves⟩

open Tape in
/-- A lone semicolon before an early end of input is passed in one round. -/
theorem reading_within_tokens_early_end :
    let tokens : List Token :=
      [⟨.symbol .semicolon, ";", 1⟩, ⟨.eof, "", 1⟩, ⟨.symbol .plus, "+", 2⟩]
    ∃ places s t', Runs (declaration (allowance tokens) false) (load tokens 0) places (.done s t') ∧
      0 < t'.current := by
  intro tokens
  obtain ⟨-, -, -, hround⟩ := reading_within_tokens .program tokens 0
  obtain ⟨hruns, hmoves⟩ := hround (load tokens 0) rfl (by decide) false
  obtain ⟨places, o, ho⟩ := hruns _ le_rfl
  obtain ⟨s, t', rfl, hlt⟩ := hmoves _ _ _ ho
  exact ⟨places, s, t', ho, hlt⟩

end Lox.Grammar
