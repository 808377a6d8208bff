import Lox.Grammar.Read
import Lox.Proofs.Grammar.Carrying

/-!
Reading other tokens of the same kinds.

The rules look at nothing but the kinds of tokens. So other tokens of the same kinds, with other
numbers for the nodes, are read as the same tree with those tokens and numbers, and refused with the
same complaints about them.
-/

namespace Lox.Grammar

/-- Other numbers and tokens, together with other complaints. -/
structure Respects (k : Edit) (f : Complaint → Complaint) : Prop where
  node : ∀ i, k.node (i + 1) = k.node i + 1
  complaint : ∀ t e, complaint (k.token t) e = f (complaint t e)

variable {k : Edit} {f : Complaint → Complaint}

def Cursor.edit (k : Edit) (f : Complaint → Complaint) (c : Cursor) : Cursor where
  rest := c.rest.map k.token
  stop := k.token c.stop
  stop_kind := (k.kind_token _).trans c.stop_kind
  nextId := k.node c.nextId
  complaints := c.complaints.map f

/-- Everything is edited, at every cursor. If complaints are left out, this goes for what is read
without any. -/
def editing (k : Edit) (f : Complaint → Complaint) (complaints : Prop) : Change where
  edit := k
  complaint := f
  cursor := Cursor.edit k f
  Total := complaints
  Inner c := complaints ∨ c.complaints = []
  Outer c := complaints ∨ c.complaints = []

lemma front_edit (c : Cursor) : (c.edit k f).front = k.token c.front := by
  unfold Cursor.front Cursor.edit
  cases c.rest <;> rfl

lemma resumeAfter_map (last : Token) (ts : List Token) :
    resumeAfter (k.token last) (ts.map k.token) = (resumeAfter last ts).map k.token := by
  induction ts generalizing last with
  | nil => rfl
  | cons t ts ih =>
    rw [List.map_cons, resumeAfter, resumeAfter, k.kind_token, k.kind_token, ih]
    split <;> rfl

lemma resume_map (ts : List Token) : resume (ts.map k.token) = (resume ts).map k.token := by
  cases ts with
  | nil => rfl
  | cons t ts => exact resumeAfter_map t ts

variable {q : Prop}

lemma accept_edit (p : Kind → Bool) : (editing k f q).Carries (editing k f q).Inner
    (editing k f q).Inner (Option.map k.token) (accept p) (accept p) := by
  rintro ⟨rest, stop, hstop, i, cs⟩
  cases rest with
  | nil => exact fun hc => ⟨hc, rfl⟩
  | cons t rest =>
    by_cases hp : p t.kind <;>
      simp only [accept, hp, editing, Cursor.edit, Change.CarriesTo, List.map_cons, if_true,
        k.kind_token]
    · exact fun hc => ⟨hc, rfl⟩
    · exact fun hc => ⟨hc, rfl⟩

lemma carries_recovering {α β : Type} {g : α → β} {s : Rule α} {s' : Rule β}
    (hs : (editing k f q).Carries (editing k f q).Inner (editing k f q).Outer g s s') :
    (editing k f q).Carries (editing k f q).Inner (editing k f q).Outer (Option.map g)
      (recovering s) (recovering s') := by
  intro c
  have hc := hs c
  unfold Grammar.recovering
  cases hsc : s c with
  | done a c' =>
    rw [hsc] at hc
    exact fun hq => ⟨(hc hq).1, by rw [(hc hq).2]; rfl⟩
  | failed e c' =>
    rw [hsc] at hc
    -- the complaint that is recorded here counts only if complaints do
    intro hq
    have htotal : q := hq.resolve_right (List.cons_ne_nil _ _)
    refine ⟨.inl htotal, ?_⟩
    rw [hc htotal]
    dsimp only [editing, Cursor.edit]
    rw [resume_map]
    rfl
  | exhausted =>
    rw [hsc] at hc
    exact fun htotal => by rw [hc htotal]

/-- No rule notices other numbers and tokens. -/
lemma unnoticed_editing (hnode : ∀ i, k.node (i + 1) = k.node i + 1)
    (hcomplaint : q → ∀ t e, complaint (k.token t) e = f (complaint t e)) :
    (editing k f q).Unnoticed where
  inner_of_total hq _ := .inl hq
  outer_of_inner _ hc := hc
  peek c hc := ⟨hc, congrArg (Outcome.done · _) (front_edit c)⟩
  atEnd c hc := ⟨hc, congrArg (Outcome.done · _) List.isEmpty_map⟩
  sees p := by
    rintro ⟨rest, stop, hstop, i, cs⟩
    cases rest with
    | nil => exact fun hc => ⟨hc, rfl⟩
    | cons t rest =>
      exact fun hc => ⟨hc, congrArg (Outcome.done · _) (congrArg p (k.kind_token t))⟩
  advance := by
    rintro ⟨rest, stop, hstop, i, cs⟩
    cases rest <;> exact fun hc => ⟨hc, rfl⟩
  accept p := accept_edit p
  acceptElse := accept_edit _
  fail g e c hq := by
    refine congrArg (Outcome.failed · _) ?_
    exact (congrArg (Grammar.complaint · e) (front_edit c)).trans (hcomplaint hq ..)
  expect p e := by
    rintro ⟨rest, stop, hstop, i, cs⟩
    cases rest with
    | nil => exact fun hq => congrArg (Outcome.failed · _) (hcomplaint hq stop e)
    | cons t rest =>
      by_cases hp : p t.kind <;>
        simp only [Grammar.expect, hp, editing, Cursor.edit, Change.CarriesTo, List.map_cons,
          if_true, k.kind_token]
      · exact fun hc => ⟨hc, trivial⟩
      · exact fun hq => congrArg (Outcome.failed · _) (hcomplaint hq t e)
  report t e c hc := by
    have hq : q := hc.resolve_right (List.cons_ne_nil _ _)
    dsimp only [Grammar.report, editing, Cursor.edit, List.map_cons]
    rw [hcomplaint hq]
    exact ⟨.inl hq, rfl⟩
  freshId c hc := by
    refine ⟨hc, ?_⟩
    unfold Grammar.freshId
    dsimp only [editing, Cursor.edit]
    rw [hnode]
  recovering := carries_recovering

lemma Respects.unnoticed (h : Respects k f) : (editing k f True).Unnoticed :=
  unnoticed_editing h.node fun _ => h.complaint

/-! ### Whole inputs -/

/-- One of the tokens is an end of input. -/
def Ended (tokens : List Token) : Prop := ∃ t ∈ tokens, t.kind.isEof

lemma ended_tokens (source : String) : Ended (Source.tokens source) := by
  have hend : ∀ ss found line, ∃ t, t.kind.isEof ∧ .token t ∈ Source.itemsAfter found line ss := by
    intro ss
    induction ss with
    | nil =>
      intro found line
      exact ⟨⟨.eof, "", line⟩, rfl, List.mem_reverse.mpr (List.mem_cons_self ..)⟩
    | cons s ss ih => exact fun found line => ih _ _
  obtain ⟨t, hkind, ht⟩ := hend (Source.segments source.toList) [] 1
  exact ⟨t, List.mem_filterMap.mpr ⟨_, ht, rfl⟩, hkind⟩

/-- What was read, with other numbers and complaints. -/
def Parsed.edit {α β : Type} (k : Edit) (f : Complaint → Complaint) (g : α → β)
    (p : Parsed α) : Parsed β where
  result :=
    match p.result with
    | .ok a => .ok (g a)
    | .error cs => .error (cs.map f)
  nextId := k.node p.nextId

section
variable {tokens : List Token}

lemma stopToken_map (h : Ended tokens) :
    stopToken (tokens.map k.token) = k.token (stopToken tokens) := by
  have hfind : (tokens.map k.token).find? (·.kind.isEof) =
      (tokens.find? (·.kind.isEof)).map k.token := by
    rw [List.find?_map]
    simp only [Function.comp_def, k.kind_token]
  have hfound : (tokens.find? (·.kind.isEof)).isSome := List.find?_isSome.mpr h
  obtain ⟨t, ht⟩ := Option.isSome_iff_exists.mp hfound
  rw [stopToken, stopToken, hfind, ht]
  rfl

lemma start_map_of_stop (h : stopToken (tokens.map k.token) = k.token (stopToken tokens))
    (i : NodeId) :
    Cursor.start (tokens.map k.token) (k.node i) = (Cursor.start tokens i).edit k f := by
  have hrest : (tokens.map k.token).takeWhile (!·.kind.isEof) =
      (tokens.takeWhile (!·.kind.isEof)).map k.token := by
    rw [List.takeWhile_map]
    simp only [Function.comp_def, k.kind_token]
  unfold Cursor.start Cursor.edit
  congr 1

lemma start_map (h : Ended tokens) (i : NodeId) :
    Cursor.start (tokens.map k.token) (k.node i) = (Cursor.start tokens i).edit k f :=
  start_map_of_stop (stopToken_map h) i

end

lemma allowance_map (tokens : List Token) :
    allowance (tokens.map k.token) = allowance tokens := by
  rw [allowance, List.length_map, allowance]

section
variable {α β : Type} {g : α → β}

lemma finish_edit (c : Cursor) (a : α) : (c.edit k f).finish (g a) = (c.finish a).edit k f g := by
  unfold Cursor.finish Parsed.edit Cursor.edit
  cases c.complaints <;> simp

lemma stopped_edit (c : Cursor) (e : Complaint) :
    (c.edit k f).stopped (f e) = (c.stopped e : Parsed α).edit k f g := by
  simp [Cursor.stopped, Parsed.edit, Cursor.edit]

lemma map_edit {γ δ : Type} {g' : γ → δ} {F : α → γ} {F' : β → δ} (p : Parsed α)
    (h : ∀ a, g' (F a) = F' (g a)) : (p.edit k f g).map F' = (p.map F).edit k f g' := by
  obtain ⟨result, j⟩ := p
  cases result with
  | error cs => rfl
  | ok a => exact congrArg (fun b => Parsed.mk (.ok b) (k.node j)) (h a).symm

end

namespace Respects

variable {tokens : List Token}

lemma program_map_of_stop (h : Respects k f)
    (ht : stopToken (tokens.map k.token) = k.token (stopToken tokens)) (i : NodeId) :
    program (tokens.map k.token) (k.node i) =
      (program tokens i).edit k f (List.map (Stmt.edit k)) := by
  have hc : (editing k f True).CarriesTo _ _ _ _
      (declarations _ [] ((Cursor.start tokens i).edit k f)) :=
    h.unnoticed.declarations (allowance tokens) [] (.start tokens i)
  unfold program
  rw [allowance_map, start_map_of_stop ht (f := f)]
  cases hr : declarations (allowance tokens) [] (.start tokens i) with
  | done body c =>
    rw [hr] at hc
    rw [(hc (.inl trivial)).2]
    exact finish_edit c body
  | failed e c =>
    rw [hr] at hc
    rw [hc trivial]
    exact stopped_edit c e
  | exhausted =>
    rw [hr] at hc
    rw [hc trivial]
    rfl

lemma program_map (h : Respects k f) (ht : Ended tokens) (i : NodeId) :
    program (tokens.map k.token) (k.node i) =
      (program tokens i).edit k f (List.map (Stmt.edit k)) :=
  h.program_map_of_stop (stopToken_map ht) i

lemma expression_start (h : Respects k f) (ht : Ended tokens) (i : NodeId) :
    (editing k f True).CarriesTo ((editing k f True).Inner (.start tokens i))
      (editing k f True).Inner (Expr.edit k)
      (expression (allowance tokens) (.start tokens i))
      (expression (allowance tokens) (.start (tokens.map k.token) (k.node i))) := by
  rw [start_map ht (f := f)]
  exact h.unnoticed.expression (allowance tokens) (.start tokens i)

lemma singleExpression_map (h : Respects k f) (ht : Ended tokens) (i : NodeId) :
    singleExpression (tokens.map k.token) (k.node i) =
      (singleExpression tokens i).edit k f (Expr.edit k) := by
  have hc := h.expression_start ht i
  unfold singleExpression
  rw [allowance_map]
  cases hr : expression (allowance tokens) (.start tokens i) with
  | done e c =>
    rw [hr] at hc
    rw [(hc (.inl trivial)).2]
    -- nothing may be left after the expression
    have hrest : ((editing k f True).cursor c).rest.isEmpty = c.rest.isEmpty := List.isEmpty_map
    dsimp only
    rw [hrest]
    split
    · exact finish_edit c e
    · rw [← stopped_edit, ← h.complaint, ← front_edit]
      rfl
  | failed e c =>
    rw [hr] at hc
    rw [hc trivial]
    exact stopped_edit c e
  | exhausted =>
    rw [hr] at hc
    rw [hc trivial]
    rfl

lemma line_map (h : Respects k f) (ht : Ended tokens) (i : NodeId) :
    line (tokens.map k.token) (k.node i) = (line tokens i).edit k f (Input.edit k) := by
  have hc := h.expression_start ht i
  have hprogram : ∀ j, (program (tokens.map k.token) (k.node j)).map .statements =
      ((program tokens j).map .statements).edit k f (Input.edit k) := fun j => by
    rw [h.program_map ht]
    exact map_edit _ fun _ => rfl
  unfold line
  rw [allowance_map]
  cases hr : expression (allowance tokens) (.start tokens i) with
  | done e c =>
    rw [hr] at hc
    rw [(hc (.inl trivial)).2]
    have hrest : ((editing k f True).cursor c).rest.isEmpty = c.rest.isEmpty := List.isEmpty_map
    dsimp only
    rw [hrest]
    split
    · exact finish_edit (g := Input.edit k) c (.expression e)
    · exact hprogram c.nextId
  | failed e c =>
    rw [hr] at hc
    rw [hc trivial]
    exact hprogram c.nextId
  | exhausted =>
    rw [hr] at hc
    rw [hc trivial]
    exact hprogram i

/-- Other numbers and tokens, and other complaints, make no difference to how tokens are read. -/
theorem inputOf_map (h : Respects k f) (ht : Ended tokens) (mode : Mode) (i : NodeId) :
    inputOf mode (tokens.map k.token) (k.node i) =
      (inputOf mode tokens i).edit k f (Input.edit k) := by
  cases mode with
  | program =>
    rw [inputOf, h.program_map ht]
    exact map_edit _ fun _ => rfl
  | expression =>
    rw [inputOf, h.singleExpression_map ht]
    exact map_edit _ fun _ => rfl
  | line => exact h.line_map ht i

end Respects

/-! ### Source texts -/

section
variable {mode : Mode} {source source' : String} {input : Input} {i j : NodeId}

/-- A text is read if it has no faults and its tokens are read. -/
lemma read_eq_ok_iff : read mode source i = ⟨.ok input, j⟩ ↔
    Source.faults source = [] ∧ inputOf mode (Source.tokens source) i = ⟨.ok input, j⟩ := by
  unfold Grammar.read readBy lexicalComplaints
  obtain ⟨result, j'⟩ := inputOf mode (Source.tokens source) i
  cases result with
  | error cs => simp
  | ok input' => cases Source.faults source <;> simp

end

end Lox.Grammar
