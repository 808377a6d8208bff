import Lox.Proofs.Grammar.Acceptance
import Lox.Proofs.Scope.Boxing

/-!
For loops in programs, and what may stand in their places.

Each word `for` of a program starts a for loop, and a statement that no `else` can be added to may
stand in its place. The program is then the same one, but for that statement.
-/

namespace Lox.Grammar

open Scope

/-! ### What stands in the place of a part -/

namespace Nonterminal

/-- The second tree is the first one with some statements in blocks of their own. Where a
declaration may stand, the innermost scope is not one that was added. -/
def Boxed : (q : Nonterminal) → q.Tree → q.Tree → Prop
  | declarations, x, y =>
    ∀ marks, Firm marks → Node.Boxed Node.Boxed.Anyhow marks (.stmts x) (.stmts y)
  | declaration, x, y =>
    ∀ marks, Firm marks → Node.Boxed Node.Boxed.Anyhow marks (.stmt x) (.stmt y)
  | statement, x, y => ∀ marks, Node.Boxed Node.Boxed.Anyhow marks (.stmt x) (.stmt y)
  | function _, x, y =>
    ∀ marks sort, Node.Boxed Node.Boxed.Anyhow marks (.function sort x) (.function sort y)
  | members, x, y => ∀ marks, Node.Boxed Node.Boxed.Anyhow marks (.methods x.1) (.methods y.1) ∧
    Node.Boxed Node.Boxed.Anyhow marks (.statics x.2) (.statics y.2)

end Nonterminal

/-- The second tree may stand in the place of the first one. -/
structure Replaces (q : Nonterminal) (x y : q.Tree) : Prop where
  boxed : q.Boxed x y
  admissible : ∀ b, q.Admissible b x → q.Admissible b y

section
variable {q : Nonterminal} {s s' t t' : Stmt} {body body' : List Stmt} {d d' : FunctionDecl}
  {ms ms' ss ss' : List FunctionDecl}

lemma Replaces.nil : Replaces .declarations [] [] := ⟨fun _ _ => .nil, fun _ h => h⟩

lemma Replaces.cons (h : Replaces .declaration s s') (hs : Replaces .declarations body body') :
    Replaces .declarations (s :: body) (s' :: body') where
  boxed marks hm := .cons (h.boxed marks hm) (hs.boxed marks hm)
  admissible b ha := by
    obtain ⟨ha, has⟩ := List.forall_mem_cons.mp ha
    exact List.forall_mem_cons.mpr ⟨h.admissible b ha, hs.admissible b has⟩

lemma Replaces.classDecl (name : Token) (h : Replaces .members (ms, ss) (ms', ss')) :
    Replaces .declaration (.classDecl name ms ss) (.classDecl name ms' ss') where
  boxed _ hm := .classDecl hm (h.boxed _).1 (h.boxed _).2
  admissible b ha := admissible_classDecl.mpr (h.admissible b (admissible_classDecl.mp ha))

lemma Replaces.funDecl (h : Replaces (.function .function) d d') :
    Replaces .declaration (.function d) (.function d') where
  boxed marks hm := .function hm (h.boxed marks _)
  admissible b ha := admissible_function.mpr (h.admissible b (admissible_function.mp ha))

lemma Replaces.ofStatement (h : Replaces .statement s s') : Replaces .declaration s s' :=
  ⟨fun marks _ => h.boxed marks, h.admissible⟩

lemma Replaces.noMembers : Replaces .members ([], []) ([], []) :=
  ⟨fun _ => ⟨.noMethods, .noStatics⟩, fun _ h => h⟩

lemma Replaces.instanceMethod (h : Replaces (.function .method) d d')
    (hs : Replaces .members (ms, ss) (ms', ss')) :
    Replaces .members (d :: ms, ss) (d' :: ms', ss') where
  boxed marks := ⟨.method (h.boxed marks _) (hs.boxed marks).1, (hs.boxed marks).2⟩
  admissible b ha := by
    obtain ⟨hd, hms⟩ := List.forall_mem_cons.mp ha.1
    obtain ⟨hms', hss'⟩ := hs.admissible b ⟨hms, ha.2⟩
    exact ⟨List.forall_mem_cons.mpr ⟨h.admissible b hd, hms'⟩, hss'⟩

lemma Replaces.staticMethod (h : Replaces (.function .method) d d')
    (hs : Replaces .members (ms, ss) (ms', ss')) :
    Replaces .members (ms, d :: ss) (ms', d' :: ss') where
  boxed marks := ⟨(hs.boxed marks).1, .static (h.boxed marks _) (hs.boxed marks).2⟩
  admissible b ha := by
    obtain ⟨hd, hss⟩ := List.forall_mem_cons.mp ha.2
    obtain ⟨hms', hss'⟩ := hs.admissible b ⟨ha.1, hss⟩
    exact ⟨hms', List.forall_mem_cons.mpr ⟨h.admissible b hd, hss'⟩⟩

lemma Replaces.function {sort : FunctionSort} (name : Token) (params : Option (List Token))
    (h : Replaces .declarations body body') :
    Replaces (.function sort) (.mk name params body) (.mk name params body') where
  boxed _ _ := .body (h.boxed _ firm_cons)
  admissible _ ha := ⟨ha.1, h.admissible false ha.2⟩

lemma Replaces.ifStmt (c : Expr) (h : Replaces .statement s s') :
    Replaces .statement (.branch c s none) (.branch c s' none) where
  boxed marks := .ifThen (.expr_refl c) (h.boxed marks)
  admissible b ha := by
    obtain ⟨hc, hs, -⟩ := admissible_branch.mp ha
    exact admissible_branch.mpr ⟨hc, h.admissible b hs, nofun⟩

lemma Replaces.ifElse (c : Expr) (h : Replaces .statement s s') (h' : Replaces .statement t t') :
    Replaces .statement (.branch c s (some t)) (.branch c s' (some t')) where
  boxed marks := .ifElse (.expr_refl c) (h.boxed marks) (h'.boxed marks)
  admissible b ha := by
    obtain ⟨hc, hs, ht⟩ := admissible_branch.mp ha
    refine admissible_branch.mpr ⟨hc, h.admissible b hs, ?_⟩
    rintro _ ⟨⟩
    exact h'.admissible b (ht t rfl)

lemma Replaces.whileStmt (c : Expr) (h : Replaces .statement s s') :
    Replaces .statement (.loop c s) (.loop c s') where
  boxed marks := .loop (.expr_refl c) (h.boxed marks)
  admissible b ha := by
    obtain ⟨hc, hs⟩ := admissible_loop.mp ha
    exact admissible_loop.mpr ⟨hc, h.admissible true hs⟩

lemma Replaces.block (h : Replaces .declarations body body') :
    Replaces .statement (.block body) (.block body') where
  boxed _ := .block (h.boxed _ firm_cons)
  admissible b ha := admissible_block.mpr (h.admissible b (admissible_block.mp ha))

lemma Replaces.forStmt (first : Option Stmt) (condition increment : Option Expr)
    (h : Replaces .statement s s') :
    Replaces .statement (forLoop first condition increment s)
      (forLoop first condition increment s') where
  boxed _ := by
    have round (marks : List Bool) : Node.Boxed Node.Boxed.Anyhow marks
        (.stmt (forLoop none condition increment s))
        (.stmt (forLoop none condition increment s')) := by
      cases condition <;> cases increment <;>
        first
        | exact .loop (.expr_refl _) (h.boxed _)
        | exact .loop (.expr_refl _) (.block (.cons (h.boxed _)
            (.cons (.expression (.expr_refl _)) .nil)))
    cases first with
    | none => exact round _
    | some f =>
      exact .block (.cons (Node.Boxed.stmt_refl firm_cons f) (.cons (round _) .nil))
  admissible b ha := by
    obtain ⟨hf, hc, hi, hs⟩ := admissible_forLoop.mp ha
    exact admissible_forLoop.mpr ⟨hf, hc, hi, h.admissible true hs⟩

/-- A part may stay in its place. -/
lemma Derives.replaces_refl {strict : Bool} {x : q.Tree} {o : Bool} {ts : List Token}
    (h : Derives strict q x o ts) : Replaces q x x := by
  have same {s : Stmt} (h : ∀ marks, Node.Boxed Node.Boxed.Anyhow marks (.stmt s) (.stmt s)) :
      Replaces .statement s s := ⟨h, fun _ h => h⟩
  induction h with
  | nil => exact .nil
  | cons _ _ ih ihs => exact ih.cons ihs
  | classDecl _ _ _ _ _ ih => exact ih.classDecl _
  | funDecl _ _ ih => exact ih.funDecl
  | @varDecl s _ _ =>
    exact ⟨fun _ hm => Node.Boxed.stmt_refl hm s, fun _ h => h⟩
  | ofStatement _ ih => exact ih.ofStatement
  | noMembers => exact .noMembers
  | instanceMethod _ _ ih ihs => exact ih.instanceMethod ihs
  | staticMethod _ _ _ ih ihs => exact ih.staticMethod ihs
  | function _ _ _ _ _ _ _ ih => exact ih.function _ _
  | getter _ _ _ _ ih => exact ih.function _ _
  | exprStmt h => cases h with | intro => exact same fun _ => .expression (.expr_refl _)
  | printStmt => exact same fun _ => .print (.expr_refl _)
  | ifStmt _ _ _ _ _ ih => exact ih.ifStmt _
  | ifElse _ _ _ _ _ _ _ _ ih ih' => exact ih.ifElse _ ih'
  | whileStmt _ _ _ _ _ ih => exact ih.whileStmt _
  | forStmt _ _ _ _ _ _ _ _ ih => exact ih.forStmt _ _ _
  | breakStmt => exact same fun _ => .breakLoop
  | @returnStmt _ value =>
    cases value with
    | none => exact same fun _ => .returnNothing
    | some e => exact same fun _ => .returnValue (.expr_refl e)
  | block _ _ _ ih => exact ih.block

end

/-! ### The tokens of a part -/

/-- None of the tokens is the word `for`. -/
def WithoutFor (ts : List Token) : Prop := ∀ t ∈ ts, t.kind ≠ .keyword .kwFor

namespace WithoutFor

variable {t : Token} {ts us : List Token}

lemma nil : WithoutFor [] := List.forall_mem_nil _

lemma cons (ht : t.kind ≠ .keyword .kwFor) (h : WithoutFor ts) : WithoutFor (t :: ts) :=
  List.forall_mem_cons.mpr ⟨ht, h⟩

lemma append (h : WithoutFor ts) (h' : WithoutFor us) : WithoutFor (ts ++ us) :=
  List.forall_mem_append.mpr ⟨h, h'⟩

lemma symbol {s : Symbol} (ht : t.kind = .symbol s) (h : WithoutFor ts) : WithoutFor (t :: ts) :=
  h.cons (by rw [ht]; exact nofun)

lemma identifier (ht : t.kind = .identifier) (h : WithoutFor ts) : WithoutFor (t :: ts) :=
  h.cons (by rw [ht]; exact nofun)

lemma keyword {k : Keyword} (ht : t.kind = .keyword k) (hk : k ≠ .kwFor) (h : WithoutFor ts) :
    WithoutFor (t :: ts) :=
  h.cons (by rw [ht]; simpa using hk)

end WithoutFor

section
variable {ts : List Token} {e : Expr} {s : Stmt}

/-- No statement, and so no loop, stands in an expression. -/
lemma Expression.withoutFor (h : Expression e ts) : WithoutFor ts := by
  intro t ht
  obtain ⟨m, hm, hfits⟩ := h.2.exists_mark ht
  rw [hfits.kind_eq]
  intro hk
  have hstart := (h.1.continues m hm).2.1
  rw [hk] at hstart
  exact nomatch hstart

/-- So with the word and the parentheses around a condition. -/
lemma Expression.withoutFor_condition {word opening closing : Token} {k : Keyword}
    (h : Expression e ts) (hword : word.kind = .keyword k) (hk : k ≠ .kwFor)
    (hopening : opening.kind = .symbol .leftParen) (hclosing : closing.kind = .symbol .rightParen) :
    WithoutFor (word :: opening :: (ts ++ [closing])) :=
  .keyword hword hk (.symbol hopening (h.withoutFor.append (.symbol hclosing .nil)))

lemma OptExpression.withoutFor {e : Option Expr} (h : OptExpression e ts) : WithoutFor ts := by
  cases h with
  | none => exact .nil
  | some h => exact h.withoutFor

lemma mem_or_eq_of_mem_intersperse {m sep : Mark} {marks : List Mark}
    (h : m ∈ marks.intersperse sep) : m ∈ marks ∨ m = sep := by
  induction marks with
  | nil => exact .inl h
  | cons a marks ih =>
    cases marks with
    | nil => exact .inl h
    | cons b marks =>
      obtain rfl | h := List.mem_cons.mp h
      · exact .inl (List.mem_cons_self ..)
      obtain rfl | h := List.mem_cons.mp h
      · exact .inr rfl
      · exact (ih h).imp_left (List.mem_cons_of_mem _)

lemma Names.withoutFor {names : List Token} (h : Names names ts) : WithoutFor ts := by
  intro t ht
  obtain ⟨m, hm, hfits⟩ := h.2.exists_mark ht
  rw [hfits.kind_eq]
  obtain hm | rfl := mem_or_eq_of_mem_intersperse hm
  · obtain ⟨name, hname, rfl⟩ := List.mem_map.mp hm
    rw [show (Mark.token name).kindOf = name.kind from rfl, h.1 name hname]
    exact nofun
  · exact nofun

lemma VarDecl.withoutFor (h : VarDecl s ts) : WithoutFor ts := by
  cases h with
  | bare hvar hname hsemicolon =>
    exact .keyword hvar nofun (.identifier hname (.symbol hsemicolon .nil))
  | initialized hvar hname hequals he hsemicolon =>
    exact .keyword hvar nofun (.identifier hname (.symbol hequals
      (he.withoutFor.append (.symbol hsemicolon .nil))))

lemma ExprStmt.withoutFor (h : ExprStmt s ts) : WithoutFor ts := by
  cases h with
  | intro he hsemicolon => exact he.withoutFor.append (.symbol hsemicolon .nil)

lemma ForFirst.withoutFor {first : Option Stmt} (h : ForFirst first ts) : WithoutFor ts := by
  cases h with
  | var h => exact h.withoutFor
  | expression h => exact h.withoutFor
  | none h => exact .symbol h .nil

end

/-! ### Where a for loop starts -/

section
variable {α : Type} {t : Token} {pre rest us vs : List Token}

lemma split_append (h : pre ++ t :: rest = us ++ vs) :
    (∃ more, us = pre ++ t :: more ∧ rest = more ++ vs) ∨
      ∃ pre', pre = us ++ pre' ∧ vs = pre' ++ t :: rest := by
  obtain ⟨more, rfl, h'⟩ | ⟨pre', rfl, h'⟩ := List.append_eq_append_iff.mp h
  · cases more with
    | nil => exact .inr ⟨[], by simp, by simpa using h'.symm⟩
    | cons a more =>
      obtain ⟨rfl, rfl⟩ := List.cons.inj h'
      exact .inl ⟨more, rfl, rfl⟩
  · exact .inr ⟨pre', rfl, h'⟩

variable (ht : t.kind = .keyword .kwFor)
include ht

/-- The word does not stand among tokens without it. -/
lemma WithoutFor.split (hus : WithoutFor us) (h : pre ++ t :: rest = us ++ vs) :
    ∃ pre', pre = us ++ pre' ∧ pre' ++ t :: rest = vs := by
  obtain ⟨more, rfl, -⟩ | ⟨pre', hpre, hvs⟩ := split_append h
  · exact absurd ht (hus t (by simp))
  · exact ⟨pre', hpre, hvs.symm⟩

lemma WithoutFor.split_before (hvs : WithoutFor vs) (h : pre ++ t :: rest = us ++ vs) :
    ∃ more, us = pre ++ t :: more ∧ rest = more ++ vs := by
  refine (split_append h).resolve_right ?_
  rintro ⟨pre', -, rfl⟩
  exact hvs t (by simp) ht

lemma WithoutFor.ne (hus : WithoutFor us) : pre ++ t :: rest ≠ us := by
  rintro rfl
  exact hus t (by simp) ht

end

lemma noElse_nil : NoElse [] := by simp [NoElse]

/-- In a tree the tokens from some point on begin with a statement, which is not followed by an
`else` that could belong to it, and another one may stand in its place. -/
def Standing (q : Nonterminal) (x : q.Tree) (o : Bool) (pre ts : List Token) : Prop :=
  ∃ d o' us post, ts = us ++ post ∧ Derives true .statement d o' us ∧ (o' → NoElse post) ∧
    (o' → post = [] → q = .declarations ∨ o) ∧ (∀ b, q.Admissible b x → ∃ b', Admissible b' d) ∧
    ∀ d₂ us₂, Derives true .statement d₂ false us₂ → Replaces .statement d d₂ →
      ∃ x₂ o₂, Derives true q x₂ o₂ (pre ++ us₂ ++ post) ∧ (o₂ → o) ∧ Replaces q x x₂

section
variable {q q₁ : Nonterminal} {x : q.Tree} {x₁ : q₁.Tree} {o o₁ : Bool} {pre ts : List Token}

/-- What holds of a part holds of a tree around it, whose further tokens stand before and after
those of the part. -/
lemma Standing.within (h : Standing q₁ x₁ o₁ pre ts) (before after : List Token)
    (hafter : q₁ = .declarations ∨ o₁ → NoElse after)
    (hend : q₁ = .declarations ∨ o₁ → after = [] → q = .declarations ∨ o)
    (hadm : ∀ b, q.Admissible b x → ∃ b', q₁.Admissible b' x₁)
    (hbuild : ∀ y o₂ us, Derives true q₁ y o₂ us → (o₂ → o₁) → Replaces q₁ x₁ y →
      ∃ z o₃, Derives true q z o₃ (before ++ (us ++ after)) ∧ (o₃ → o) ∧ Replaces q x z) :
    Standing q x o (before ++ pre) (ts ++ after) := by
  obtain ⟨d, o', us, post, rfl, hd, helse, hpost, hadm₁, hreplace⟩ := h
  refine ⟨d, o', us, post ++ after, by simp, hd, fun ho => ?_, fun ho hnil => ?_, fun b hb => ?_,
    fun d₂ us₂ hd₂ hd₂' => ?_⟩
  · cases post with
    | nil => exact hafter (hpost ho rfl)
    | cons t post => exact helse ho
  · obtain ⟨hpost', rfl⟩ := List.append_eq_nil_iff.mp hnil
    exact hend (hpost ho hpost') rfl
  · obtain ⟨b', hb'⟩ := hadm b hb
    exact hadm₁ b' hb'
  · obtain ⟨y, o₂, hy, ho₂, hxy⟩ := hreplace d₂ us₂ hd₂ hd₂'
    obtain ⟨z, o₃, hz, ho₃, hxz⟩ := hbuild y o₂ _ hy ho₂ hxy
    exact ⟨z, o₃, by simpa using hz, ho₃, hxz⟩

/-- The same, where the part is a declaration, function or statement to which no `else` can be
added. -/
lemma Standing.inner (h : Standing q₁ x₁ false pre ts) (hq : q₁ ≠ .declarations)
    (before after : List Token) (hadm : ∀ b, q.Admissible b x → ∃ b', q₁.Admissible b' x₁)
    (hbuild : ∀ y us, Derives true q₁ y false us → Replaces q₁ x₁ y →
      ∃ z, Derives true q z o (before ++ (us ++ after)) ∧ Replaces q x z) :
    Standing q x o (before ++ pre) (ts ++ after) := by
  have closed {p : Prop} (hp : q₁ = .declarations ∨ false) : p := absurd hp (by simp [hq])
  refine h.within before after closed closed hadm fun y o₂ us hy ho hxy => ?_
  obtain rfl : o₂ = false := by simpa using ho
  obtain ⟨z, hz, hxz⟩ := hbuild y us hy hxy
  exact ⟨z, o, hz, id, hxz⟩

/-- The same, where the part is a body in braces. -/
lemma Standing.braced {y : List Stmt} (h : Standing .declarations y false pre ts)
    (before : List Token) {brace : Token} (hbrace : brace.kind = .symbol .rightBrace)
    (hadm : ∀ b, q.Admissible b x → ∃ b', ∀ s ∈ y, Admissible b' s)
    (hbuild : ∀ y' us, Derives true .declarations y' false us → Replaces .declarations y y' →
      ∃ z, Derives true q z o (before ++ (us ++ [brace])) ∧ Replaces q x z) :
    Standing q x o (before ++ pre) (ts ++ [brace]) := by
  refine h.within before [brace] (fun _ => noElse_of_symbol hbrace) nofun hadm
    fun y' o₂ us hy ho hxy => ?_
  obtain rfl : o₂ = false := by simpa using ho
  obtain ⟨z, hz, hxz⟩ := hbuild y' us hy hxy
  exact ⟨z, o, hz, id, hxz⟩

/-- The same, where the part is the last one. -/
lemma Standing.last (h : Standing q₁ x₁ o₁ pre ts) (before : List Token)
    (hend : q₁ = .declarations ∨ o₁ → q = .declarations ∨ o)
    (hadm : ∀ b, q.Admissible b x → ∃ b', q₁.Admissible b' x₁)
    (hbuild : ∀ y o₂ us, Derives true q₁ y o₂ us → (o₂ → o₁) → Replaces q₁ x₁ y →
      ∃ z o₃, Derives true q z o₃ (before ++ us) ∧ (o₃ → o) ∧ Replaces q x z) :
    Standing q x o (before ++ pre) ts := by
  have hwithin := h.within (q := q) (x := x) (o := o) before [] (fun _ => noElse_nil)
    (fun ho _ => hend ho) hadm fun y o₂ us hy ho hxy => ?_
  · rwa [List.append_nil] at hwithin
  · rw [List.append_nil]
    exact hbuild y o₂ us hy ho hxy

/-- The same, where the part is all of the tree. -/
lemma Standing.whole {d : Stmt} (hd : Derives true .statement d o ts) :
    Standing .statement d o [] ts :=
  ⟨d, o, ts, [], by simp, hd, fun _ => noElse_nil, fun ho _ => .inr ho,
    fun b hb => ⟨b, hb⟩, fun d₂ us₂ hd₂ h => ⟨d₂, false, by simpa using hd₂, nofun, h⟩⟩

end

/-- Wherever the word `for` stands among the tokens of a tree, a statement starts. -/
theorem Derives.standing {q : Nonterminal} {x : q.Tree} {o : Bool} {ts : List Token}
    (h : Derives true q x o ts) {pre rest : List Token} {t : Token}
    (ht : t.kind = .keyword .kwFor) (hts : pre ++ t :: rest = ts) :
    Standing q x o pre (t :: rest) := by
  induction h generalizing pre rest with
  | nil => simp at hts
  | @cons s o ts body us h hs ih ihs =>
    obtain ⟨more, rfl, rfl⟩ | ⟨pre, rfl, rfl⟩ := split_append hts
    · refine (ih rfl).within [] us (fun _ => ?_) (fun _ _ => .inl rfl)
        (fun b hb => ⟨b, (List.forall_mem_cons.mp hb).1⟩) fun y o₂ us₂ hy _ hxy => ?_
      · simpa using noElse_of_declarations hs noElse_nil
      · exact ⟨y :: body, false, (hy.cons hs :), id, hxy.cons hs.replaces_refl⟩
    · refine (ihs rfl).last ts (fun _ => .inl rfl)
        (fun b hb => ⟨b, (List.forall_mem_cons.mp hb).2⟩) fun y o₂ us hy ho hxy => ?_
      obtain rfl : o₂ = false := by simpa using ho
      exact ⟨s :: y, false, h.cons hy, id, h.replaces_refl.cons hxy⟩
  | @classDecl word name opening methods statics ts closing hword hname hopening h hclosing ih =>
    have hbefore : WithoutFor [word, name, opening] :=
      .keyword hword nofun (.identifier hname (.symbol hopening .nil))
    obtain ⟨pre, rfl, hrest⟩ := hbefore.split ht hts
    obtain ⟨more, rfl, rfl⟩ := (WithoutFor.symbol hclosing .nil).split_before ht hrest
    refine (ih rfl).inner nofun [word, name, opening] [closing]
      (fun b hb => ⟨b, admissible_classDecl.mp hb⟩) fun y us hy hxy => ?_
    obtain ⟨ms, ss⟩ := y
    exact ⟨_, .classDecl hword hname hopening hy hclosing, hxy.classDecl name⟩
  | @funDecl word d ts hword h ih =>
    obtain ⟨pre, rfl, rfl⟩ := (WithoutFor.keyword hword nofun .nil).split ht hts
    refine (ih rfl).last [word] (fun ho => .inr (ho.resolve_left nofun))
      (fun b hb => ⟨b, admissible_function.mp hb⟩) fun y o₂ us hy ho hxy => ?_
    obtain rfl : o₂ = false := by simpa using ho
    exact ⟨.function y, false, hy.funDecl hword, id, hxy.funDecl⟩
  | varDecl h => exact absurd hts (h.withoutFor.ne ht)
  | @ofStatement s o ts h ih =>
    exact (ih hts).last [] (fun ho => .inr (ho.resolve_left nofun)) (fun b hb => ⟨b, hb⟩)
      fun y o₂ us hy ho hxy => ⟨y, o₂, hy.ofStatement, ho, hxy.ofStatement⟩
  | noMembers => simp at hts
  | @instanceMethod m ts methods statics us h hs ih ihs =>
    obtain ⟨more, rfl, rfl⟩ | ⟨pre, rfl, rfl⟩ := split_append hts
    · exact (ih rfl).inner nofun [] us (fun b hb => ⟨b, (List.forall_mem_cons.mp hb.1).1⟩)
        fun y us₂ hy hxy => ⟨_, (hy.instanceMethod hs :), hxy.instanceMethod hs.replaces_refl⟩
    · refine (ihs rfl).last ts (fun ho => .inr (ho.resolve_left nofun))
        (fun b hb => ⟨b, (List.forall_mem_cons.mp hb.1).2, hb.2⟩) fun y o₂ us₂ hy ho hxy => ?_
      obtain rfl : o₂ = false := by simpa using ho
      obtain ⟨ms, ss⟩ := y
      exact ⟨(m :: ms, ss), false, h.instanceMethod hy, id, h.replaces_refl.instanceMethod hxy⟩
  | @staticMethod word m ts methods statics us hword h hs ih ihs =>
    obtain ⟨pre, rfl, hrest⟩ := (WithoutFor.keyword hword nofun .nil).split ht hts
    obtain ⟨more, rfl, rfl⟩ | ⟨pre, rfl, rfl⟩ := split_append hrest
    · exact (ih rfl).inner nofun [word] us (fun b hb => ⟨b, (List.forall_mem_cons.mp hb.2).1⟩)
        fun y us₂ hy hxy => ⟨_, (hy.staticMethod hword hs :), hxy.staticMethod hs.replaces_refl⟩
    · refine (ihs rfl).last (word :: ts) (fun ho => .inr (ho.resolve_left nofun))
        (fun b hb => ⟨b, hb.1, (List.forall_mem_cons.mp hb.2).2⟩) fun y o₂ us₂ hy ho hxy => ?_
      obtain rfl : o₂ = false := by simpa using ho
      obtain ⟨ms, ss⟩ := y
      exact ⟨(ms, m :: ss), false, h.staticMethod hword hy, id, h.replaces_refl.staticMethod hxy⟩
  | @function sort name opening params ts closing brace body us brace' hname hopening hparams
      hclosing hbrace h hbrace' ih =>
    have hbefore : WithoutFor (name :: opening :: (ts ++ [closing, brace])) :=
      .identifier hname (.symbol hopening
        (hparams.withoutFor.append (.symbol hclosing (.symbol hbrace .nil))))
    obtain ⟨pre, rfl, hrest⟩ := hbefore.split ht (by simpa using hts)
    obtain ⟨more, rfl, rfl⟩ := (WithoutFor.symbol hbrace' .nil).split_before ht hrest
    refine (ih rfl).braced _ hbrace' (fun b hb => ⟨false, hb.2⟩) fun y us hy hxy =>
      ⟨.mk name (some params) y, ?_, hxy.function name _⟩
    simpa using Derives.function hname hopening hparams hclosing hbrace hy hbrace'
  | @getter name brace body us brace' hname hbrace h hbrace' ih =>
    obtain ⟨pre, rfl, hrest⟩ := (WithoutFor.identifier hname (.symbol hbrace .nil)).split ht hts
    obtain ⟨more, rfl, rfl⟩ := (WithoutFor.symbol hbrace' .nil).split_before ht hrest
    exact (ih rfl).braced [name, brace] hbrace' (fun b hb => ⟨false, hb.2⟩) fun y us hy hxy =>
      ⟨_, .getter hname hbrace hy hbrace', hxy.function name none⟩
  | exprStmt h => exact absurd hts (h.withoutFor.ne ht)
  | printStmt hword he hsemicolon =>
    exact absurd hts (WithoutFor.ne ht (.keyword hword nofun
      (he.withoutFor.append (.symbol hsemicolon .nil))))
  | @ifStmt word opening c ts closing s o us hword hopening he hclosing h ih =>
    have hbefore := he.withoutFor_condition hword nofun hopening hclosing
    obtain ⟨pre, rfl, rfl⟩ := hbefore.split ht (by simpa using hts)
    refine (ih rfl).last _ (fun _ => .inr rfl)
      (fun b hb => ⟨b, (admissible_branch.mp hb).2.1⟩) fun y o₂ us hy ho hxy =>
        ⟨.branch c y none, true, ?_, id, hxy.ifStmt c⟩
    simpa using hy.ifStmt hword hopening he hclosing
  | @ifElse word opening c ts closing s o us word' s' o' vs hword hopening he hclosing h ho hword'
      h' ih ih' =>
    obtain rfl := ho rfl
    have hbefore := he.withoutFor_condition hword nofun hopening hclosing
    obtain ⟨pre, rfl, hrest⟩ := hbefore.split ht (by simpa using hts)
    obtain ⟨more, rfl, rfl⟩ | ⟨pre, rfl, hlast⟩ := split_append hrest
    · refine (ih rfl).inner nofun _ (word' :: vs)
        (fun b hb => ⟨b, (admissible_branch.mp hb).2.1⟩) fun y us hy hxy =>
          ⟨.branch c y (some s'), ?_, hxy.ifElse c h'.replaces_refl⟩
      simpa using hy.ifElse hword hopening he hclosing (fun _ => rfl) hword' h'
    · obtain ⟨pre, rfl, rfl⟩ := (WithoutFor.keyword hword' nofun .nil).split ht hlast.symm
      have hlater := (ih' rfl).last (q := .statement) (x := .branch c s (some s')) (o := o')
        (word :: opening :: (ts ++ closing :: (us ++ [word'])))
        (fun ho => .inr (ho.resolve_left nofun))
        (fun b hb => ⟨b, (admissible_branch.mp hb).2.2 s' rfl⟩) fun y o₂ vs₂ hy ho hxy => ?_
      · simpa using hlater
      · refine ⟨.branch c s (some y), o₂, ?_, ho, h.replaces_refl.ifElse c hxy⟩
        simpa using h.ifElse hword hopening he hclosing (fun _ => rfl) hword' hy
  | @whileStmt word opening c ts closing s o us hword hopening he hclosing h ih =>
    have hbefore := he.withoutFor_condition hword nofun hopening hclosing
    obtain ⟨pre, rfl, rfl⟩ := hbefore.split ht (by simpa using hts)
    refine (ih rfl).last _ (fun ho => .inr (ho.resolve_left nofun))
      (fun b hb => ⟨true, (admissible_loop.mp hb).2⟩) fun y o₂ us hy ho hxy =>
        ⟨.loop c y, o₂, ?_, ho, hxy.whileStmt c⟩
    simpa using hy.whileStmt hword hopening he hclosing
  | @forStmt word opening first ts condition us semicolon increment vs closing s o ws hword hopening
      hfirst hcondition hsemicolon hincrement hclosing h ih =>
    have hall := h.forStmt hword hopening hfirst hcondition hsemicolon hincrement hclosing
    cases pre with
    | nil =>
      rw [List.nil_append] at hts
      rw [hts]
      exact Standing.whole hall
    | cons a pre =>
      obtain ⟨rfl, hts⟩ := List.cons.inj hts
      have hbefore : WithoutFor (opening :: (ts ++ (us ++ semicolon :: (vs ++ [closing])))) :=
        .symbol hopening (hfirst.withoutFor.append (hcondition.withoutFor.append
          (.symbol hsemicolon (hincrement.withoutFor.append (.symbol hclosing .nil)))))
      obtain ⟨pre, rfl, rfl⟩ := hbefore.split ht (by simpa using hts)
      refine (ih rfl).last (a :: opening :: (ts ++ (us ++ semicolon :: (vs ++ [closing]))))
        (fun ho => .inr (ho.resolve_left nofun))
        (fun b hb => ⟨true, (admissible_forLoop.mp hb).2.2.2⟩) fun y o₂ ws hy ho hxy =>
          ⟨forLoop first condition increment y, o₂, ?_, ho, hxy.forStmt _ _ _⟩
      simpa using hy.forStmt hword hopening hfirst hcondition hsemicolon hincrement hclosing
  | breakStmt hword hsemicolon =>
    exact absurd hts (WithoutFor.ne ht (.keyword hword nofun (.symbol hsemicolon .nil)))
  | returnStmt hword hvalue hsemicolon =>
    exact absurd hts (WithoutFor.ne ht (.keyword hword nofun
      (hvalue.withoutFor.append (.symbol hsemicolon .nil))))
  | @block opening body ts closing hopening h hclosing ih =>
    obtain ⟨pre, rfl, hrest⟩ := (WithoutFor.symbol hopening .nil).split ht hts
    obtain ⟨more, rfl, rfl⟩ := (WithoutFor.symbol hclosing .nil).split_before ht hrest
    exact (ih rfl).braced [opening] hclosing (fun b hb => ⟨b, admissible_block.mp hb⟩)
      fun y us hy hxy => ⟨_, .block hopening hy hclosing, hxy.block⟩

end Lox.Grammar
