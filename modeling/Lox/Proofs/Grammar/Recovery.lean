import Mathlib.Order.Bounds.Basic
import Lox.Proofs.Grammar.Position
import Lox.Proofs.Grammar.Seam

/-!
A program is its first declaration and then the program that comes after.

The rules do not look at the complaints that have been recorded before them. So once the first
declaration has been read, or given up, what remains is read as a program by itself. After a failure
it begins at the next place where a statement is likely to start.
-/

namespace Lox.Grammar

/-! ### Earlier complaints -/

/-- The cursor with earlier complaints behind its own. -/
def Cursor.after (old : List Complaint) (c : Cursor) : Cursor :=
  { c with complaints := c.complaints ++ old }

/-- There are earlier complaints. -/
def afterComplaints (old : List Complaint) : Change where
  edit := Relabeling.same.edit
  complaint := id
  cursor := Cursor.after old
  Total := True
  Inner _ := True
  Outer _ := True

lemma accept_after (old : List Complaint) (p : Kind → Bool) :
    (afterComplaints old).Carries (fun _ => True) (fun _ => True)
      (Option.map Relabeling.same.edit.token) (accept p) (accept p) := by
  rintro ⟨rest, stop, hstop, i, cs⟩
  cases rest with
  | nil => exact fun _ => ⟨trivial, rfl⟩
  | cons t rest =>
    by_cases hp : p t.kind <;>
      simp only [accept, hp, afterComplaints, Cursor.after, Change.CarriesTo, if_true] <;>
      exact fun _ => ⟨trivial, rfl⟩

/-- No rule notices earlier complaints. -/
lemma unnoticed_afterComplaints (old : List Complaint) : (afterComplaints old).Unnoticed where
  inner_of_total _ _ := trivial
  outer_of_inner _ _ := trivial
  peek _ _ := ⟨trivial, rfl⟩
  atEnd _ _ := ⟨trivial, rfl⟩
  sees _ _ _ := ⟨trivial, rfl⟩
  advance _ _ := ⟨trivial, rfl⟩
  accept := accept_after old
  acceptElse := accept_after old _
  fail _ _ _ _ := rfl
  expect p e := by
    rintro ⟨rest, stop, hstop, i, cs⟩
    cases rest with
    | nil => exact fun _ => rfl
    | cons t rest =>
      by_cases hp : p t.kind <;>
        simp only [Grammar.expect, hp, afterComplaints, Cursor.after, Change.CarriesTo, if_true]
      · exact fun _ => ⟨trivial, rfl⟩
      · exact fun _ => rfl
  report _ _ _ _ := ⟨trivial, rfl⟩
  freshId _ _ := ⟨trivial, rfl⟩
  recovering {α β f r r'} hr c := by
    have hc := hr c
    unfold Grammar.recovering
    cases hrc : r c with
    | done a c' =>
      rw [hrc] at hc
      exact fun _ => ⟨trivial, by rw [(hc trivial).2]; rfl⟩
    | failed e c' =>
      rw [hrc] at hc
      exact fun _ => ⟨trivial, by rw [hc trivial]; rfl⟩
    | exhausted =>
      rw [hrc] at hc
      exact fun _ => by rw [hc trivial]

section
variable {n : ℕ} {c c' : Cursor} {found body : List Stmt}

/-- Declarations are read in the same way after earlier complaints and statements. -/
lemma declarations_after (hr : declarations n [] c = .done body c') (found : List Stmt)
    (old : List Complaint) :
    declarations n found (c.after old) = .done (found.reverse ++ body) (c'.after old) := by
  obtain ⟨_, rfl, hall⟩ := declarations_done hr
  have hc := (unnoticed_afterComplaints old).declarations n found c
  rw [hall found] at hc
  have hsame : ∀ ss : List Stmt, ss.map (Stmt.edit Relabeling.same.edit) = ss := fun ss =>
    (List.map_congr_left fun s _ => (s.edit_relabeling .same).trans s.relabel_same).trans
      (List.map_id ss)
  have hdone := (hc trivial).2
  change declarations n (found.map (Stmt.edit Relabeling.same.edit)) _ =
    .done (List.map (Stmt.edit Relabeling.same.edit) _) _ at hdone
  rwa [hsame, hsame] at hdone

lemma declaration_ne_failed (n : ℕ) (b : Bool) (c : Cursor) (e : Complaint) (c' : Cursor) :
    declaration n b c ≠ .failed e c' := by
  cases n with
  | zero => nofun
  | succ n =>
    rw [declaration_succ]
    unfold recovering
    cases bareDeclaration n b c <;> nofun

/-- Declarations up to the end of input are not given up, only single ones are. -/
lemma declarations_ne_failed (n : ℕ) (found : List Stmt) (c : Cursor) (e : Complaint)
    (c' : Cursor) : declarations n found c ≠ .failed e c' := by
  induction n generalizing found c with
  | zero => nofun
  | succ n ih =>
    by_cases hend : c.rest = []
    · rw [declarations_atEnd hend]
      nofun
    · rw [declarations_next hend, Rule.bind_apply]
      cases hs : declaration n false c with
      | done s c₁ => exact ih _ _
      | failed e c₁ => exact absurd hs (declaration_ne_failed _ _ _ _ _)
      | exhausted => nofun

end

section
variable {tokens rest more : List Token} {firstId : NodeId} {n j k : ℕ} {stop t : Token}

lemma exists_declarations (tokens : List Token) (firstId : NodeId) :
    ∃ body c, declarations (allowance tokens) [] (.start tokens firstId) = .done body c := by
  cases hr : declarations (allowance tokens) [] (.start tokens firstId) with
  | done body c => exact ⟨body, c, rfl⟩
  | failed e c => exact absurd hr (declarations_ne_failed _ _ _ _ _)
  | exhausted => exact absurd hr (declarations_not_exhausted tokens firstId)

lemma program_of_done {body : List Stmt} {c : Cursor}
    (h : declarations n [] (.start tokens firstId) = .done body c) :
    program tokens firstId = c.finish body := by
  have henough := declarations_of_enough tokens firstId (n := n) (by rw [h]; nofun)
  unfold program
  rw [henough, h]

/-! ### Places in the input -/

lemma not_isEof_of_mem_beforeEnd (h : t ∈ beforeEnd tokens) : t.kind.isEof = false := by
  have hall : ∀ t ∈ beforeEnd tokens, (!t.kind.isEof) = true :=
    List.all_eq_true.mp List.all_takeWhile
  simpa using hall t h

/-- An end of input comes after the tokens that count. -/
lemma exists_eq_beforeEnd_append (h : Ended tokens) :
    ∃ more, tokens = beforeEnd tokens ++ stopToken tokens :: more := by
  obtain ⟨t, ht⟩ := Option.isSome_iff_exists.mp (List.find?_isSome.mpr h)
  obtain ⟨-, before, more, hsplit, hbefore⟩ := List.find?_eq_some_iff_append.mp ht
  have hstop : stopToken tokens = t := by rw [stopToken, ht]
  have hkind : t.kind.isEof = true := by simpa using List.find?_some ht
  have htake : beforeEnd tokens = before := by
    unfold beforeEnd
    rw [hsplit, List.takeWhile_append_of_pos fun a ha => by simpa using hbefore a ha]
    simp [hkind]
  exact ⟨more, by rw [htake, hstop, hsplit]⟩

/-- The cursor at the front of tokens up to an end of input. -/
lemma start_eq {us : List Token} (hus : us = rest ++ stop :: more) (hstop : stop.kind = .eof)
    (hrest : ∀ t ∈ rest, t.kind.isEof = false) (i : NodeId) :
    Cursor.start us i = ⟨rest, stop, hstop, i, []⟩ := by
  have hkind : stop.kind.isEof = true := by rw [hstop]; rfl
  have htake : us.takeWhile (!·.kind.isEof) = rest := by
    rw [hus, List.takeWhile_append_of_pos fun a ha => by rw [hrest a ha]; rfl]
    simp [hkind]
  have hfind : stopToken us = stop := by
    have hnone : rest.find? (·.kind.isEof) = none :=
      List.find?_eq_none.mpr fun t ht => by rw [hrest t ht]; nofun
    rw [stopToken, hus, List.find?_append, hnone, Option.none_or]
    simp [hkind]
  unfold Cursor.start
  congr

/-- A cursor that has gone forward from the front has passed some of the tokens. -/
lemma Cursor.Ahead.exists_take {c : Cursor} (h : (Cursor.start tokens firstId).Ahead c) :
    ∃ j, beforeEnd tokens = tokens.take j ++ c.rest := by
  obtain ⟨passed, hpassed⟩ := h.rest
  have hprefix : passed <+: tokens :=
    (List.prefix_append passed c.rest).trans (hpassed ▸ List.takeWhile_prefix _)
  refine ⟨passed.length, ?_⟩
  rw [← List.prefix_iff_eq_take.mp hprefix]
  exact hpassed.symm

lemma drop_eq_of_take (hsplit : tokens = beforeEnd tokens ++ stop :: more)
    (hj : beforeEnd tokens = tokens.take j ++ rest) :
    tokens.drop j = rest ++ stop :: more := by
  have hwhole : tokens.take j ++ tokens.drop j = tokens.take j ++ (rest ++ stop :: more) := by
    rw [List.take_append_drop, ← List.append_assoc, ← hj]
    exact hsplit
  exact List.append_cancel_left hwhole

/-- Reading may resume at the place: a semicolon stands right before it, or what stands there is a
word that starts a statement or the end of input. -/
def Resumable (tokens : List Token) (j : ℕ) : Prop :=
  (∃ t, tokens[j - 1]? = some t ∧ t.kind = .symbol .semicolon) ∨
    ∃ t, tokens[j]? = some t ∧ (startsStatement t.kind ∨ t.kind = .eof)

/-- Reading resumes at the first such place. -/
lemma isLeast_resumeAfter (hdrop : tokens.drop k = t :: (rest ++ stop :: more))
    (hstop : stop.kind = .eof) (hrest : ∀ t ∈ rest, t.kind.isEof = false) :
    ∃ j, IsLeast {j | k < j ∧ Resumable tokens j} j ∧
      tokens.drop j = resumeAfter t rest ++ stop :: more := by
  induction rest generalizing k t with
  | nil =>
    have hnext : tokens.drop (k + 1) = stop :: more := by rw [← List.tail_drop, hdrop]; rfl
    refine ⟨k + 1, ⟨⟨k.lt_succ_self, .inr ⟨stop, ?_, .inr hstop⟩⟩, fun j hj => hj.1⟩, hnext⟩
    rw [← List.head?_drop, hnext]
    rfl
  | cons u rest ih =>
    have hnext : tokens.drop (k + 1) = u :: (rest ++ stop :: more) := by
      rw [← List.tail_drop, hdrop]
      rfl
    have ht : tokens[k]? = some t := by rw [← List.head?_drop, hdrop]; rfl
    have hu : tokens[k + 1]? = some u := by rw [← List.head?_drop, hnext]; rfl
    rw [resumeAfter]
    split
    · rename_i hstart
      refine ⟨k + 1, ⟨⟨k.lt_succ_self, ?_⟩, fun j hj => hj.1⟩, hnext⟩
      rcases Bool.or_eq_true _ _ ▸ hstart with hsemicolon | hword
      · exact .inl ⟨t, ht, kind_of_isSymbol hsemicolon⟩
      · exact .inr ⟨u, hu, .inl hword⟩
    · rename_i hstart
      obtain ⟨j, ⟨hj, hleast⟩, hdropj⟩ := ih hnext fun t ht => hrest t (List.mem_cons_of_mem _ ht)
      refine ⟨j, ⟨⟨(Nat.lt_succ_self k).trans hj.1, hj.2⟩, ?_⟩, hdropj⟩
      -- the place right after the first token is passed over
      rintro i ⟨hi, hresume⟩
      rcases Nat.lt_or_ge (k + 1) i with hlt | hge
      · exact hleast ⟨hlt, hresume⟩
      · obtain rfl : i = k + 1 := le_antisymm hge hi
        rcases hresume with ⟨t', ht', hkind⟩ | ⟨u', hu', hkind⟩
        · rw [Nat.add_sub_cancel, ht] at ht'
          cases ht'
          simp [hkind, Kind.isSymbol] at hstart
        · rw [hu] at hu'
          cases hu'
          rcases hkind with hword | heof
          · simp [hword] at hstart
          · have hno := hrest u (List.mem_cons_self ..)
            rw [heof] at hno
            cases hno

/-- Where reading resumes after a failure at the place `k`: at the first place after it where it
may, or right there at the end of input. -/
def ResumesAt (tokens : List Token) (k j : ℕ) (t : Token) : Prop :=
  t.kind = .eof ∧ j = k ∨ t.kind ≠ .eof ∧ IsLeast {j | k < j ∧ Resumable tokens j} j

lemma exists_resumesAt (hdrop : tokens.drop k = rest ++ stop :: more)
    (hstop : stop.kind = .eof) (hrest : ∀ t ∈ rest, t.kind.isEof = false) :
    tokens[k]? = some (rest.headD stop) ∧ ∃ j, ResumesAt tokens k j (rest.headD stop) ∧
      tokens.drop j = resume rest ++ stop :: more := by
  rw [← List.head?_drop, hdrop]
  cases rest with
  | nil => exact ⟨rfl, k, .inl ⟨hstop, rfl⟩, hdrop⟩
  | cons t rest =>
    obtain ⟨j, hj, hdropj⟩ := isLeast_resumeAfter hdrop hstop fun t ht =>
      hrest t (List.mem_cons_of_mem _ ht)
    refine ⟨rfl, j, .inr ⟨fun heof => ?_, hj⟩, hdropj⟩
    have hno := hrest t (List.mem_cons_self ..)
    rw [show t.kind = .eof from heof] at hno
    cases hno

end

/-! ### Programs -/

/-- What was read, followed by what comes after it: the statements of both or the complaints of
both. -/
def Parsed.followedBy (p q : Parsed (List Stmt)) : Parsed (List Stmt) where
  result :=
    match p.result, q.result with
    | .ok body, .ok more => .ok (body ++ more)
    | .ok _, .error cs => .error cs
    | .error cs, .ok _ => .error cs
    | .error cs, .error ds => .error (cs ++ ds)
  nextId := q.nextId

lemma finish_after (c d : Cursor) (body more : List Stmt) :
    (d.after c.complaints).finish (body ++ more) = (c.finish body).followedBy (d.finish more) := by
  obtain ⟨rest, stop, hstop, i, cs⟩ := c
  obtain ⟨rest', stop', hstop', i', ds⟩ := d
  cases cs <;> cases ds <;> simp [Cursor.finish, Cursor.after, Parsed.followedBy]

/-- Once the first declaration has been read or given up, the tokens after it are read as a program
by themselves. -/
lemma program_of_declaration {tokens more : List Token} {firstId : NodeId} {n j : ℕ}
    {s : Option Stmt} {c : Cursor} (hfront : beforeEnd tokens ≠ [])
    (hs : declaration n false (.start tokens firstId) = .done s c)
    (hstop : c.stop = stopToken tokens) (hrest : c.rest <:+ beforeEnd tokens)
    (hj : tokens.drop j = c.rest ++ stopToken tokens :: more) :
    program tokens firstId =
      (c.finish s.toList).followedBy (program (tokens.drop j) c.nextId) := by
  have hcursor : (Cursor.start (tokens.drop j) c.nextId).after c.complaints = c := by
    rw [start_eq hj (stopToken_kind tokens) fun t ht =>
      not_isEof_of_mem_beforeEnd (hrest.subset ht)]
    obtain ⟨rest, stop, hkind, i, cs⟩ := c
    cases hstop
    rfl
  obtain ⟨body, d, hd⟩ := exists_declarations (tokens.drop j) c.nextId
  set m := allowance (tokens.drop j)
  have hafter := declarations_after hd s.toList c.complaints
  rw [hcursor] at hafter
  have hlater : declarations (n + m) s.toList c =
      .done (s.toList ++ body) (d.after c.complaints) := by
    have hle := declarations_mono s.toList (Nat.le_add_left m n)
    have hreverse : s.toList.reverse = s.toList := by cases s <;> rfl
    rw [hreverse] at hafter
    exact Rule.done_of_le hle hafter
  have hfirst : declaration (n + m) false (.start tokens firstId) = .done s c :=
    Rule.done_of_le (monotone_nat_of_le_succ (f := (declaration · false))
      (fun n => (stmtGrows n).declaration _) (Nat.le_add_right n m)) hs
  have hall : declarations (n + m + 1) [] (.start tokens firstId) =
      .done (s.toList ++ body) (d.after c.complaints) := by
    rw [declarations_next hfront, Rule.bind_apply, hfirst]
    dsimp only
    rw [List.append_nil]
    exact hlater
  rw [program_of_done hall, program_of_done hd]
  exact finish_after c d s.toList body

/-- What one declaration at the front of the tokens comes to, followed by the program that comes
after it. -/
inductive FrontThenRest (tokens : List Token) (firstId : NodeId) : Parsed (List Stmt) → Prop
  /-- There is no declaration. -/
  | atEnd (h : beforeEnd tokens = []) : FrontThenRest tokens firstId ⟨.ok [], firstId⟩
  /-- The declaration takes the first `j` tokens, be it with complaints, and the program starts
  right after them. -/
  | read {n j : ℕ} {s : Stmt} {c : Cursor}
    (h : bareDeclaration n false (.start tokens firstId) = .done s c) (hpos : 0 < j)
    (hj : beforeEnd tokens = tokens.take j ++ c.rest) :
    FrontThenRest tokens firstId ((c.finish [s]).followedBy (program (tokens.drop j) c.nextId))
  /-- The declaration fails at the token `t` in the place `k`, and the program starts where reading
  resumes. -/
  | givenUp {n k j : ℕ} {t : Token} {f : Fault} {c : Cursor}
    (h : bareDeclaration n false (.start tokens firstId) = .failed (complaint t f) c)
    (hk : beforeEnd tokens = tokens.take k ++ c.rest) (ht : tokens[k]? = some t)
    (hj : ResumesAt tokens k j t) :
    FrontThenRest tokens firstId
      ((c.stopped (complaint t f)).followedBy (program (tokens.drop j) c.nextId))

/-- A program is read as one declaration at the front, and then the rest as a program by itself. -/
theorem program_of_front {tokens : List Token} (h : Ended tokens) (firstId : NodeId) :
    FrontThenRest tokens firstId (program tokens firstId) := by
  obtain ⟨more, hsplit⟩ := exists_eq_beforeEnd_append h
  by_cases hfront : beforeEnd tokens = []
  · have hdone : declarations 1 [] (.start tokens firstId) = .done [] _ :=
      declarations_atEnd hfront 0 []
    rw [program_of_done hdone]
    exact .atEnd hfront
  -- enough steps for the first declaration
  have hlen := Cursor.start_length_le tokens firstId
  have hends := (stmtEnds (allowance tokens + 1)).declaration false (.start tokens firstId)
    (by unfold allowance; omega) hfront
  have hforward := ((stmtComposed (allowance tokens)).bareDeclaration false).forward
    (.start tokens firstId)
  have hs := congrFun (declaration_succ (allowance tokens) false) (.start tokens firstId)
  unfold recovering at hs
  cases hr : bareDeclaration (allowance tokens) false (.start tokens firstId) with
  | done s c =>
    rw [hr] at hs hforward
    cases hforward with
    | done hahead =>
      obtain ⟨j, hj⟩ := hahead.exists_take
      rw [program_of_declaration hfront hs hahead.stop hahead.rest (drop_eq_of_take hsplit hj)]
      refine .read hr (Nat.pos_of_ne_zero fun hzero => ?_) hj
      -- a declaration takes a token at least
      unfold Rule.EndsAt at hends
      rw [hs] at hends
      have hrest : c.rest = beforeEnd tokens := by rw [hj, hzero]; rfl
      have hlt : c.rest.length + 1 ≤ (beforeEnd tokens).length := hends.1
      rw [hrest] at hlt
      omega
  | failed e c =>
    rw [hr] at hs hforward
    cases hforward with
    | failed hahead f =>
      obtain ⟨k, hk⟩ := hahead.exists_take
      have hdrop := drop_eq_of_take hsplit hk
      have hnot : ∀ t ∈ c.rest, t.kind.isEof = false := fun t ht =>
        not_isEof_of_mem_beforeEnd (hahead.rest.subset ht)
      obtain ⟨ht, j, hresumes, hj⟩ := exists_resumesAt hdrop (stopToken_kind tokens) hnot
      have hfront' : c.rest.headD (stopToken tokens) = c.front := by
        rw [Cursor.front, hahead.stop]
        rfl
      rw [hfront'] at ht hresumes
      rw [program_of_declaration hfront hs hahead.stop
        ((resume_suffix c.rest).trans hahead.rest) hj]
      exact .givenUp hr hk ht hresumes
  | exhausted =>
    rw [hr] at hs
    exact absurd hs hends.ne_exhausted

/-- A loop that is given up in its condition has no body: the `break` after it stands by itself. -/
theorem program_of_front_unfinished_loop :
    let tokens : List Token := [⟨.keyword .kwWhile, "while", 1⟩, ⟨.symbol .leftParen, "(", 1⟩,
      ⟨.symbol .semicolon, ";", 1⟩, ⟨.keyword .kwBreak, "break", 2⟩,
      ⟨.symbol .semicolon, ";", 2⟩, ⟨.eof, "", 3⟩]
    Ended tokens ∧ FrontThenRest tokens 0 (program tokens 0) ∧
      program tokens 0 = ⟨.error [.grammar 1 (.token ";") .expectedExpression,
        .grammar 2 (.token "break") .breakOutsideLoop], 0⟩ := by
  intro tokens
  have h : Ended tokens := ⟨⟨.eof, "", 3⟩, by simp [tokens], rfl⟩
  exact ⟨h, program_of_front h 0, rfl⟩

end Lox.Grammar
