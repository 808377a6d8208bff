import Lox.Proofs.Grammar.Replacement
import Lox.Proofs.Grammar.SingleExpression

/-!
Where the semicolons of a program are.

A semicolon ends a statement, or it stands in the head of a for loop. The parentheses tell which: a
program closes all that it opens, and only the head of a for loop has semicolons in parentheses.
-/

namespace Lox.Grammar

/-- What a token adds to the number of open parentheses. -/
def parenthesis : Kind → ℤ
  | .symbol .leftParen => 1
  | .symbol .rightParen => -1
  | _ => 0

/-- How many parentheses are open after the tokens. -/
def depth : List Token → ℤ
  | [] => 0
  | t :: ts => parenthesis t.kind + depth ts

section
variable {t : Token} {ts us vs pre post : List Token} {d : ℤ}

@[simp] lemma depth_nil : depth [] = 0 := rfl

@[simp] lemma depth_cons : depth (t :: ts) = parenthesis t.kind + depth ts := rfl

@[simp] lemma depth_append : depth (us ++ vs) = depth us + depth vs := by
  induction us with
  | nil => simp
  | cons t us ih => simp [ih, Int.add_assoc]

/-- Every semicolon among the tokens stands in parentheses, `d` of which are open in front. -/
def Sheltered (d : ℤ) : List Token → Prop
  | [] => True
  | t :: ts => (t.kind = .symbol .semicolon → d ≠ 0) ∧ Sheltered (d + parenthesis t.kind) ts

lemma sheltered_append :
    Sheltered d (us ++ vs) ↔ Sheltered d us ∧ Sheltered (d + depth us) vs := by
  induction us generalizing d with
  | nil => simp [Sheltered]
  | cons t us ih => simp [Sheltered, ih, and_assoc, Int.add_assoc]

lemma sheltered_of_forall (h : ∀ t ∈ ts, t.kind ≠ .symbol .semicolon) : Sheltered d ts := by
  induction ts generalizing d with
  | nil => trivial
  | cons t ts ih =>
    obtain ⟨ht, hts⟩ := List.forall_mem_cons.mp h
    exact ⟨fun hsemicolon => absurd hsemicolon ht, ih hts⟩

/-! ### Expressions and names -/

/-- The text of an expression closes the parentheses that it opens, and holds nothing that starts or
ends a statement. -/
structure Flat (ts : List Token) : Prop where
  depth : depth ts = 0
  inert : ∀ t ∈ ts, startsStatement t.kind = false ∧ t.kind.isSymbol .semicolon = false

lemma Flat.not_semicolon (h : Flat ts) (ht : t ∈ ts) : t.kind ≠ .symbol .semicolon := by
  intro hkind
  have hinert := (h.inert t ht).2
  rw [hkind] at hinert
  cases hinert

lemma Flat.sheltered (h : Flat ts) : Sheltered d ts :=
  sheltered_of_forall fun _ ht => h.not_semicolon ht

lemma flat_nil : Flat [] := ⟨rfl, by simp⟩

/-- How many parentheses are open after the marks. -/
def markDepth : List Mark → ℤ
  | [] => 0
  | m :: ms => parenthesis m.kindOf + markDepth ms

section
variable {ms ms' : List Mark}

@[simp] lemma markDepth_nil : markDepth [] = 0 := rfl

lemma markDepth_cons (m : Mark) : markDepth (m :: ms) = parenthesis m.kindOf + markDepth ms := rfl

@[simp] lemma markDepth_append : markDepth (ms ++ ms') = markDepth ms + markDepth ms' := by
  induction ms with
  | nil => simp
  | cons m ms ih => simp [markDepth_cons, ih, Int.add_assoc]

@[simp] lemma markDepth_token : markDepth (.token t :: ms) = parenthesis t.kind + markDepth ms :=
  markDepth_cons _

@[simp] lemma markDepth_symbol (s : Symbol) :
    markDepth (.symbol s :: ms) = parenthesis (.symbol s) + markDepth ms :=
  markDepth_cons _

lemma depth_eq_of_spells (h : Spells ms ts) : depth ts = markDepth ms := by
  induction h with
  | nil => rfl
  | cons hm _ ih => rw [depth_cons, ih, hm.kind_eq, markDepth_cons]

end

lemma parenthesis_of_binaryLevel? {k : Kind} {l : Level} (h : binaryLevel? k = some l) :
    parenthesis k = 0 := by
  unfold binaryLevel? at h
  split at h <;> first | rfl | cases h

lemma parenthesis_of_logicalLevel? {k : Kind} {l : Level} (h : logicalLevel? k = some l) :
    parenthesis k = 0 := by
  unfold logicalLevel? at h
  split at h <;> first | rfl | cases h

lemma markDepth_yieldEach {es : List Expr} (h : ∀ e ∈ es, markDepth e.yield = 0) :
    markDepth (Expr.yieldEach es) = 0 := by
  induction es with
  | nil => rfl
  | cons e es ih =>
    obtain ⟨he, hes⟩ := List.forall_mem_cons.mp h
    cases es with
    | nil => exact he
    | cons b es => simp [Expr.yieldEach, he, ih hes, parenthesis]

lemma At.markDepth_yield {l : Level} {e : Expr} (h : At l e) : markDepth e.yield = 0 := by
  induction h with
  | tighter _ _ ih => exact ih
  | binary hop _ _ _ ihl ihr => simp [Expr.yield, ihl, ihr, parenthesis_of_binaryLevel? hop]
  | logical hop _ _ _ ihl ihr => simp [Expr.yield, ihl, ihr, parenthesis_of_logicalLevel? hop]
  | unary hop _ ih => rcases hop with hop | hop <;> simp [Expr.yield, ih, hop, parenthesis]
  | call _ hparen _ ih ihs =>
    simp [Expr.yield, ih, markDepth_yieldEach ihs, hparen, parenthesis]
  | @literal x => rcases x with x | s | (_ | _) | _ <;> rfl
  | this hkeyword => simp [Expr.yield, hkeyword, parenthesis]
  | _ => simp_all [Expr.yield, parenthesis]

lemma Expression.flat {e : Expr} (h : Expression e ts) : Flat ts where
  depth := (depth_eq_of_spells h.2).trans h.1.markDepth_yield
  inert t ht := by
    obtain ⟨m, hm, hfits⟩ := h.2.exists_mark ht
    rw [hfits.kind_eq]
    exact (h.1.continues m hm).2

lemma OptExpression.flat {o : Option Expr} (h : OptExpression o ts) : Flat ts := by
  cases h with
  | none => exact flat_nil
  | some h => exact h.flat

lemma Names.depth {names : List Token} (h : Names names ts) : depth ts = 0 := by
  rw [depth_eq_of_spells h.2]
  have hall := h.1
  clear h
  induction names with
  | nil => rfl
  | cons name names ih =>
    obtain ⟨hname, hnames⟩ := List.forall_mem_cons.mp hall
    cases names with
    | nil => simp [hname, parenthesis]
    | cons b names => simpa [hname, parenthesis] using ih hnames

lemma Names.not_semicolon {names : List Token} (h : Names names ts) (ht : t ∈ ts) :
    t.kind ≠ .symbol .semicolon := by
  obtain ⟨m, hm, hfits⟩ := h.2.exists_mark ht
  rw [hfits.kind_eq]
  obtain hm | rfl := mem_or_eq_of_mem_intersperse hm
  · obtain ⟨name, hname, rfl⟩ := List.mem_map.mp hm
    rw [show (Mark.token name).kindOf = name.kind from rfl, h.1 name hname]
    exact nofun
  · exact nofun

/-! ### Statements -/

/-- A semicolon ends the tokens, and there is none before it. -/
inductive Terminated : List Token → Prop
  | intro (front : List Token) {semicolon} : semicolon.kind = .symbol .semicolon →
      depth front = 0 → (∀ t ∈ front, t.kind ≠ .symbol .semicolon) →
      Terminated (front ++ [semicolon])

lemma Terminated.depth (h : Terminated ts) : depth ts = 0 := by
  cases h with
  | intro _ hsemicolon hdepth _ => simp [hdepth, hsemicolon, parenthesis]

lemma VarDecl.terminated {s : Stmt} (h : VarDecl s ts) : Terminated ts := by
  cases h with
  | @bare var name semicolon hvar hname hsemicolon =>
    exact .intro [var, name] hsemicolon (by simp [hvar, hname, parenthesis])
      (by simp [hvar, hname])
  | @initialized var name equals e ts semicolon hvar hname hequals he hsemicolon =>
    exact .intro (var :: name :: equals :: ts) hsemicolon
      (by simp [hvar, hname, hequals, parenthesis, he.flat.depth])
      (by simpa [hvar, hname, hequals] using fun t => he.flat.not_semicolon)

lemma ExprStmt.terminated {s : Stmt} (h : ExprStmt s ts) : Terminated ts := by
  cases h with
  | intro he hsemicolon => exact .intro _ hsemicolon he.flat.depth fun _ => he.flat.not_semicolon

lemma ForFirst.terminated {first : Option Stmt} (h : ForFirst first ts) : Terminated ts := by
  cases h with
  | var h => exact h.terminated
  | expression h => exact h.terminated
  | none hsemicolon => exact .intro [] hsemicolon rfl (by simp)

/-- A statement of a word and what it is about. -/
lemma terminated_word {word semicolon : Token} {k : Keyword} (hword : word.kind = .keyword k)
    (hts : Flat ts) (hsemicolon : semicolon.kind = .symbol .semicolon) :
    Terminated (word :: (ts ++ [semicolon])) :=
  .intro (word :: ts) hsemicolon (by simp [hword, hts.depth, parenthesis])
    (by simpa [hword] using fun _ => hts.not_semicolon)

/-- A tree closes the parentheses that it opens. -/
lemma Derives.depth_eq {strict o : Bool} {q : Nonterminal} {x : q.Tree}
    (h : Derives strict q x o ts) : depth ts = 0 := by
  induction h with
  | nil | noMembers => rfl
  | cons _ _ ih ihs => simp [ih, ihs]
  | classDecl hword hname hopening _ hclosing ih =>
    simp [hword, hname, hopening, hclosing, ih, parenthesis]
  | funDecl hword _ ih => simp [hword, ih, parenthesis]
  | varDecl h => exact h.terminated.depth
  | ofStatement _ ih => exact ih
  | instanceMethod _ _ ih ihs => simp [ih, ihs]
  | staticMethod hword _ _ ih ihs => simp [hword, ih, ihs, parenthesis]
  | function hname hopening hparams hclosing hbrace _ hbrace' ih =>
    simp [hname, hopening, hparams.depth, hclosing, hbrace, ih, hbrace', parenthesis]
  | getter hname hbrace _ hbrace' ih => simp [hname, hbrace, ih, hbrace', parenthesis]
  | exprStmt h => exact h.terminated.depth
  | printStmt hword he hsemicolon => exact (terminated_word hword he.flat hsemicolon).depth
  | ifStmt hword hopening he hclosing _ ih =>
    simp [hword, hopening, he.flat.depth, hclosing, ih, parenthesis]
  | ifElse hword hopening he hclosing _ _ hword' _ ih ih' =>
    simp [hword, hopening, he.flat.depth, hclosing, ih, hword', ih', parenthesis]
  | whileStmt hword hopening he hclosing _ ih =>
    simp [hword, hopening, he.flat.depth, hclosing, ih, parenthesis]
  | forStmt hword hopening hfirst hcondition hsemicolon hincrement hclosing _ ih =>
    simp [hword, hopening, hfirst.terminated.depth, hcondition.flat.depth, hsemicolon,
      hincrement.flat.depth, hclosing, ih, parenthesis]
  | breakStmt hword hsemicolon => exact (terminated_word hword flat_nil hsemicolon).depth
  | returnStmt hword hvalue hsemicolon =>
    exact (terminated_word hword hvalue.flat hsemicolon).depth
  | block hopening _ hclosing ih => simp [hopening, hclosing, ih, parenthesis]

/-! ### Semicolons -/

/-- After the tokens, the semicolon separates two clauses in the head of a for loop. -/
inductive Separates (semicolon : Token) : List Token → Prop
  | first (front) {word opening first ts} : word.kind = .keyword .kwFor →
      opening.kind = .symbol .leftParen → ForFirst first (ts ++ [semicolon]) →
      Separates semicolon (front ++ word :: opening :: ts)
  | second (front) {word opening first ts condition us} : word.kind = .keyword .kwFor →
      opening.kind = .symbol .leftParen → ForFirst first ts → OptExpression condition us →
      Separates semicolon (front ++ word :: opening :: (ts ++ us))

/-- The semicolons among the tokens are outside of all parentheses, or in the head of a for loop. -/
def Placed (ts : List Token) : Prop :=
  ∀ pre semicolon post, semicolon.kind = .symbol .semicolon → ts = pre ++ semicolon :: post →
    depth pre = 0 ∨ Separates semicolon pre

variable {semicolon closing : Token}

lemma Separates.append_left (h : Separates semicolon pre) (front : List Token) :
    Separates semicolon (front ++ pre) := by
  cases h with
  | first _ hword hopening hfirst =>
    rw [← List.append_assoc]
    exact .first _ hword hopening hfirst
  | second _ hword hopening hfirst hcondition =>
    rw [← List.append_assoc]
    exact .second _ hword hopening hfirst hcondition

lemma not_separates (h : ∀ t ∈ pre, t.kind ≠ .keyword .kwFor) : ¬Separates semicolon pre := by
  rintro (⟨_, hword, _, _⟩ | ⟨_, hword, _, _, _⟩) <;> exact h _ (by simp) hword

/-- A semicolon comes after tokens that have none. -/
lemma split_semicolon (us : List Token) (hus : ∀ t ∈ us, t.kind ≠ .symbol .semicolon)
    (hsemicolon : semicolon.kind = .symbol .semicolon) (h : us ++ vs = pre ++ semicolon :: post) :
    ∃ pre', pre = us ++ pre' ∧ vs = pre' ++ semicolon :: post := by
  refine (split_append h.symm).resolve_left ?_
  rintro ⟨more, rfl, -⟩
  exact hus semicolon (by simp) hsemicolon

lemma placed_of_forall (h : ∀ t ∈ ts, t.kind ≠ .symbol .semicolon) : Placed ts := by
  intro pre semicolon post hsemicolon hts
  exact absurd hsemicolon (h semicolon (by simp [hts]))

lemma Placed.append (hus : Placed us) (hdepth : depth us = 0) (hvs : Placed vs) :
    Placed (us ++ vs) := by
  intro pre semicolon post hsemicolon hts
  obtain ⟨more, rfl, -⟩ | ⟨pre, rfl, rfl⟩ := split_append hts.symm
  · exact hus pre semicolon more hsemicolon rfl
  · rw [depth_append, hdepth, Int.zero_add]
    exact (hvs pre semicolon post hsemicolon rfl).imp_right (·.append_left us)

lemma Placed.cons (hus : Placed us) (hdepth : parenthesis t.kind = 0)
    (ht : t.kind ≠ .symbol .semicolon) : Placed (t :: us) := by
  have hfront : Placed [t] := placed_of_forall (by simpa using ht)
  exact hfront.append (by simpa using hdepth) hus

lemma Terminated.placed (h : Terminated ts) : Placed ts := by
  intro pre semicolon post hsemicolon hts
  cases h with
  | @intro us last _ hdepth hus =>
    obtain ⟨pre, rfl, hlast⟩ := split_semicolon us hus hsemicolon hts
    obtain ⟨rfl, -⟩ : pre = [] ∧ _ :=
      (List.append_eq_singleton_iff.mp hlast.symm).resolve_right (by simp)
    exact .inl (by simpa using hdepth)

lemma placed_braced (us : List Token) (hus : ∀ t ∈ us, t.kind ≠ .symbol .semicolon)
    (hdepth : depth us = 0) (hvs : Placed vs) (hbalanced : depth vs = 0) (hclosing : closing.kind = .symbol .rightBrace) :
    Placed (us ++ (vs ++ [closing])) := by
  have hlast : Placed [closing] := placed_of_forall (by simp [hclosing])
  exact (placed_of_forall hus).append hdepth (hvs.append hbalanced hlast)

/-- The statement after a condition in parentheses. -/
lemma placed_conditional {word opening : Token} {k : Keyword} (hword : word.kind = .keyword k)
    (hopening : opening.kind = .symbol .leftParen) (hts : Flat ts)
    (hclosing : closing.kind = .symbol .rightParen) (hus : Placed us) :
    Placed (word :: opening :: (ts ++ closing :: us)) := by
  have hhead : Placed (word :: opening :: (ts ++ [closing])) :=
    placed_of_forall (by simpa [hword, hopening, hclosing, or_imp, forall_and]
      using fun _ => hts.not_semicolon)
  simpa using hhead.append (by simp [hword, hopening, hts.depth, hclosing, parenthesis]) hus

lemma placed_forStmt {word opening separator : Token} {first : Option Stmt}
    {condition increment : Option Expr} {ws : List Token} (hword : word.kind = .keyword .kwFor)
    (hopening : opening.kind = .symbol .leftParen) (hfirst : ForFirst first ts)
    (hcondition : OptExpression condition us) (hseparator : separator.kind = .symbol .semicolon)
    (hincrement : OptExpression increment vs) (hclosing : closing.kind = .symbol .rightParen)
    (hws : Placed ws) :
    Placed (word :: opening :: (ts ++ (us ++ separator :: (vs ++ closing :: ws)))) := by
  -- the semicolon is the first separator, or the second one, or it is in the body
  intro pre semicolon post hsemicolon hsplit
  have hclauses := hfirst
  obtain @⟨ts, last, hlast, hdepth, hts⟩ := hfirst.terminated
  obtain ⟨pre, rfl, hfrom⟩ := split_semicolon (word :: opening :: ts)
    (by simpa [hword, hopening] using hts) hsemicolon (by simpa using hsplit)
  cases pre with
  | nil =>
    obtain ⟨rfl, -⟩ := List.cons.inj hfrom
    rw [List.append_nil]
    exact .inr (.first [] hword hopening hclauses)
  | cons t pre =>
    obtain ⟨rfl, hrest⟩ := List.cons.inj hfrom
    obtain ⟨pre, rfl, hfrom'⟩ :=
      split_semicolon us (fun _ => hcondition.flat.not_semicolon) hsemicolon hrest
    cases pre with
    | nil =>
      obtain ⟨rfl, -⟩ := List.cons.inj hfrom'
      have hseparates : Separates separator _ := .second [] hword hopening hclauses hcondition
      exact .inr (by simpa using hseparates)
    | cons u pre =>
      obtain ⟨rfl, hrest'⟩ := List.cons.inj hfrom'
      obtain ⟨pre, rfl, rfl⟩ := split_semicolon (vs ++ [closing])
        (by simpa [hclosing, or_imp, forall_and] using fun _ => hincrement.flat.not_semicolon)
        hsemicolon (by simpa using hrest')
      obtain hpre | hseparates := hws pre semicolon post hsemicolon rfl
      · refine .inl ?_
        simp [hword, hopening, hdepth, hlast, hcondition.flat.depth, hseparator,
          hincrement.flat.depth, hclosing, hpre, parenthesis]
      · refine .inr ?_
        simpa using hseparates.append_left
          (word :: opening :: (ts ++ last :: (us ++ separator :: (vs ++ [closing]))))

/-- A semicolon that does not separate clauses in the head of a for loop is outside of all
parentheses. -/
theorem Derives.placed {strict o : Bool} {q : Nonterminal} {x : q.Tree}
    (h : Derives strict q x o ts) : Placed ts := by
  induction h with
  | nil | noMembers => exact placed_of_forall (by simp)
  | cons h _ ih ihs => exact ih.append h.depth_eq ihs
  | classDecl hword hname hopening h hclosing ih =>
    exact placed_braced [_, _, _] (by simp [hword, hname, hopening])
      (by simp [hword, hname, hopening, parenthesis]) ih h.depth_eq hclosing
  | funDecl hword _ ih =>
    exact ih.cons (by rw [hword]; rfl) (by rw [hword]; nofun)
  | varDecl h => exact h.terminated.placed
  | ofStatement _ ih => exact ih
  | instanceMethod h _ ih ihs => exact ih.append h.depth_eq ihs
  | staticMethod hword h _ ih ihs =>
    exact (ih.append h.depth_eq ihs).cons (by rw [hword]; rfl) (by rw [hword]; nofun)
  | @function _ name opening _ ts closing brace _ us brace' hname hopening hparams hclosing hbrace h
      hbrace' ih =>
    have hplaced := placed_braced (name :: opening :: (ts ++ [closing, brace]))
      (by simpa [hname, hopening, hclosing, hbrace, or_imp, forall_and]
        using fun _ => hparams.not_semicolon)
      (by simp [hname, hopening, hparams.depth, hclosing, hbrace, parenthesis])
      ih h.depth_eq hbrace'
    simpa using hplaced
  | getter hname hbrace h hbrace' ih =>
    exact placed_braced [_, _] (by simp [hname, hbrace])
      (by simp [hname, hbrace, parenthesis]) ih h.depth_eq hbrace'
  | exprStmt h => exact h.terminated.placed
  | printStmt hword he hsemicolon => exact (terminated_word hword he.flat hsemicolon).placed
  | ifStmt hword hopening he hclosing _ ih =>
    exact placed_conditional hword hopening he.flat hclosing ih
  | ifElse hword hopening he hclosing h _ hword' _ ih ih' =>
    have helse := ih'.cons (by rw [hword']; rfl) (by rw [hword']; nofun)
    exact placed_conditional hword hopening he.flat hclosing (ih.append h.depth_eq helse)
  | whileStmt hword hopening he hclosing _ ih =>
    exact placed_conditional hword hopening he.flat hclosing ih
  | forStmt hword hopening hfirst hcondition hsemicolon hincrement hclosing _ ih =>
    exact placed_forStmt hword hopening hfirst hcondition hsemicolon hincrement hclosing ih
  | breakStmt hword hsemicolon => exact (terminated_word hword flat_nil hsemicolon).placed
  | returnStmt hword hvalue hsemicolon =>
    exact (terminated_word hword hvalue.flat hsemicolon).placed
  | block hopening h hclosing ih =>
    exact placed_braced [_] (by simp [hopening]) (by simp [hopening, parenthesis]) ih
      h.depth_eq hclosing

end

end Lox.Grammar
