import Lox.Proofs.Grammar.Acceptance
import Lox.Proofs.Scope.Progress
import Lox.Source.Item

/-!
Trees in which declarations stand where they always run, and in which `this` is no variable.

Every tree that is read from a source text is of this kind: a branch is a statement and not a
declaration, and a reserved word is not a name.
-/

namespace Lox

/-! ### Words -/

/-- A token whose lexeme is a reserved word exactly if its kind says so. -/
def Token.Worded (t : Token) : Prop :=
  match t.kind with
  | .identifier => Keyword.ofWord? t.lexeme = none
  | .keyword k => t.lexeme = k.text
  | _ => True

lemma Token.Worded.lexeme_this {t : Token} (h : t.Worded) (hk : t.kind = .keyword .kwThis) :
    t.lexeme = "this" := by
  rw [Worded, hk] at h
  exact h

lemma Token.Worded.lexeme_ne_this {t : Token} (h : t.Worded) (hk : t.kind = .identifier) :
    t.lexeme ≠ "this" := by
  rw [Worded, hk] at h
  intro hthis
  rw [hthis, show "this" = Keyword.kwThis.text from rfl, Keyword.ofWord?_text] at h
  exact nomatch h

namespace Source

/-- A segment whose text is a reserved word exactly if its role says so. -/
def Segment.Worded (s : Segment) : Prop := ∀ k, s.role = .token k → ∀ line,
  Token.Worded ⟨k, String.ofList s.text, line⟩

lemma worded_word (cs : List Char) : (word cs).1.Worded := by
  rintro k hk line
  obtain rfl : wordKind (cs.takeWhile isWordPart) = k := by simpa [word] using hk
  unfold wordKind Token.Worded
  cases h : Keyword.ofWord? (String.ofList (cs.takeWhile isWordPart)) with
  | none => exact h
  | some k => exact (Keyword.text_of_ofWord? h).symm

lemma worded_single (c : Char) : (single c).Worded := by
  unfold single
  split <;> rintro k hk line
  · obtain rfl : _ = k := by simpa using hk
    trivial
  · exact nomatch hk

lemma worded_symbol (c : Char) (cs : List Char) : (symbol c cs).1.Worded := by
  unfold symbol
  split
  · exact worded_single c
  · split
    · rintro k hk line
      obtain rfl : _ = k := by simpa using hk
      trivial
    · exact worded_single c

lemma worded_number (cs : List Char) : (number cs).1.Worded := by
  unfold number
  dsimp only
  split
  · split <;>
    · rintro k hk line
      obtain rfl : _ = k := by simpa using hk
      trivial
  · rintro k hk line
    obtain rfl : _ = k := by simpa using hk
    trivial

lemma worded_string (cs : List Char) : (string cs).1.Worded := by
  unfold string
  dsimp only
  split <;> rintro k hk line
  · cases hk
  · obtain rfl : _ = k := by simpa using hk
    trivial

lemma worded_first (c : Char) (cs : List Char) : (first c cs).1.Worded := by
  unfold first
  split
  · exact nofun
  split
  · exact worded_number _
  split
  · exact worded_word _
  split
  · exact worded_string _
  split
  · split
    · exact nofun
    · unfold blockComment
      split <;> exact nofun
    · exact worded_symbol c cs
  · exact worded_symbol c cs

lemma worded_of_mem_segmentsAfter (found : List Segment) (cs : List Char)
    (h : ∀ s ∈ found, s.Worded) : ∀ s ∈ segmentsAfter found cs, s.Worded := by
  induction found, cs using segmentsAfter.induct with
  | case1 found =>
    rw [segmentsAfter]
    exact fun s hs => h s (List.mem_reverse.mp hs)
  | case2 found c cs ih =>
    rw [segmentsAfter]
    refine ih fun s hs => ?_
    rcases List.mem_cons.mp hs with rfl | hs
    · exact worded_first c cs
    · exact h s hs

lemma worded_of_mem_itemsAfter (ss : List Segment) (hss : ∀ s ∈ ss, s.Worded)
    (found : List Item) (line : ℕ) (h : ∀ t, .token t ∈ found → t.Worded) :
    ∀ t, .token t ∈ itemsAfter found line ss → t.Worded := by
  induction ss generalizing found line with
  | nil =>
    intro t ht
    rw [itemsAfter, List.mem_reverse, List.mem_cons] at ht
    rcases ht with ht | ht
    · obtain rfl := Item.token.inj ht
      trivial
    · exact h t ht
  | cons s ss ih =>
    refine ih (fun s hs => hss s (List.mem_cons_of_mem _ hs)) _ _ fun t ht => ?_
    rcases List.mem_append.mp ht with ht | ht
    · have hitem : s.item? _ = some (.token t) := Option.mem_toList.mp ht
      unfold Segment.item? at hitem
      split at hitem
      · exact nomatch hitem
      · exact nomatch hitem
      · rename_i k hk
        simp only [Option.some.injEq, Item.token.injEq] at hitem
        exact hitem ▸ hss s (List.mem_cons_self ..) k hk _
      · exact nomatch hitem
    · exact h t ht

/-- The reserved words of a source text are told from its names. -/
theorem worded_of_mem_tokens {source : String} {t : Token} (ht : t ∈ tokens source) :
    t.Worded := by
  obtain ⟨i, hi, hit⟩ := List.mem_filterMap.mp ht
  have hsegments := worded_of_mem_segmentsAfter [] source.toList (by simp)
  cases i with
  | token u =>
    obtain rfl : u = t := by simpa [Item.token?] using hit
    exact worded_of_mem_itemsAfter _ hsegments [] 1 (by simp) u hi
  | fault => exact nomatch hit

end Source

/-! ### Trees -/

/-- The word of an expression that is `this`. -/
def Expr.thisWord? : Expr → Option Token
  | this _ keyword => some keyword
  | _ => none

/-- In an orderly expression only the word `this` refers to an object. -/
inductive Expr.Orderly : Expr → Prop
  | intro {e : Expr} : (∀ p ∈ e.parts, Orderly p) →
      (∀ keyword ∈ e.thisWord?, keyword.lexeme = "this") → Orderly e

lemma Expr.orderly_of_parts {e : Expr} (h : ∀ p ∈ e.parts, p.Orderly) (he : e.thisWord? = none) :
    e.Orderly :=
  .intro h (by simp [he])

namespace Stmt

/-- The name that a statement declares in the scope it stands in. -/
def declared? : Stmt → Option Token
  | declare name _ => some name
  | function d => some d.name
  | classDecl name _ _ => some name
  | _ => none

/-- The name of a variable declaration. -/
def newVariable? : Stmt → Option Token
  | declare name _ => some name
  | _ => none

/-- The expressions directly inside a statement. -/
def exprs : Stmt → List Expr
  | expression e => [e]
  | print e => [e]
  | declare _ initial => initial.toList
  | branch c _ _ => [c]
  | loop c _ => [c]
  | returnFrom _ value => value.toList
  | _ => []

/-- The expressions that a statement begins with, in its own scope and before all else. -/
def heads : Stmt → List Expr
  | expression e => [e]
  | print e => [e]
  | branch c _ _ => [c]
  | loop c _ => [c]
  | _ => []

/-- The statements inside a statement that run in its own scope, in order. -/
def branches : Stmt → List Stmt
  | branch _ t e => t :: e.toList
  | loop _ body => [body]
  | _ => []

/-- The statements inside a statement that run in scopes of their own. -/
def inner : Stmt → List Stmt
  | block body => body
  | function d => d.body
  | classDecl _ methods statics => (methods ++ statics).flatMap FunctionDecl.body
  | _ => []

/-- In an orderly statement no branch declares a name, and no variable is called `this`. -/
inductive Orderly : Stmt → Prop
  | intro {d : Stmt} : (∀ e ∈ d.exprs, e.Orderly) →
      (∀ b ∈ d.branches, b.declared? = none) → (∀ b ∈ d.branches, Orderly b) →
      (∀ b ∈ d.inner, Orderly b) →
      (∀ name ∈ d.newVariable?, name.lexeme ≠ "this") → Orderly d

section
variable {d : Stmt}

lemma Orderly.exprs (h : d.Orderly) : ∀ e ∈ d.exprs, e.Orderly := by
  obtain ⟨h, -, -, -, -⟩ := h; exact h

lemma Orderly.declared?_branches (h : d.Orderly) : ∀ b ∈ d.branches, b.declared? = none := by
  obtain ⟨-, h, -, -, -⟩ := h; exact h

lemma Orderly.branches (h : d.Orderly) : ∀ b ∈ d.branches, b.Orderly := by
  obtain ⟨-, -, h, -⟩ := h; exact h

lemma Orderly.inner (h : d.Orderly) : ∀ b ∈ d.inner, b.Orderly := by
  obtain ⟨-, -, -, h, -⟩ := h; exact h

lemma Orderly.name {name : Token} {initial : Option Expr} (h : (declare name initial).Orderly) :
    name.lexeme ≠ "this" := by
  obtain ⟨-, -, -, -, h⟩ := h
  exact h name rfl

end

end Stmt

namespace Grammar

lemma mem_yieldEach {a : Expr} {es : List Expr} (ha : a ∈ es) {m : Mark} (hm : m ∈ a.yield) :
    m ∈ Expr.yieldEach es := by
  induction es with
  | nil => exact absurd ha List.not_mem_nil
  | cons e es ih =>
    cases es with
    | nil => exact List.mem_singleton.mp ha ▸ hm
    | cons b es =>
      simp only [Expr.yieldEach, List.mem_append, List.mem_cons]
      rcases List.mem_cons.mp ha with rfl | ha
      · exact .inl hm
      · exact .inr (.inr (ih ha))

lemma mem_yield_of_mem_parts {p e : Expr} (hp : p ∈ e.parts) {m : Mark} (hm : m ∈ p.yield) :
    m ∈ e.yield := by
  cases e with
  | call callee paren arguments =>
    rcases List.mem_cons.mp hp with rfl | hp
    · simp [Expr.yield, hm]
    · simp [Expr.yield, mem_yieldEach hp hm]
  | _ =>
    simp only [Expr.parts, List.mem_cons, List.not_mem_nil, or_false] at hp
    all_goals
      rcases hp with rfl | rfl | rfl <;> simp [Expr.yield, hm]

lemma At.orderly {l : Level} {e : Expr} (h : At l e) (ht : ∀ t, .token t ∈ e.yield → t.Worded) :
    e.Orderly := by
  have parts : ∀ {e p : Expr}, p ∈ e.parts → (∀ t, .token t ∈ e.yield → t.Worded) →
      ((∀ t, .token t ∈ p.yield → t.Worded) → p.Orderly) → p.Orderly :=
    fun hp ht ih => ih fun t hm => ht t (mem_yield_of_mem_parts hp hm)
  induction h with
  | tighter _ _ ih => exact ih ht
  | call _ _ _ ih ihs =>
    refine Expr.orderly_of_parts (fun p hp => parts hp ht ?_) rfl
    rcases List.mem_cons.mp hp with rfl | hp
    · exact ih
    · exact ihs p hp
  | @this id keyword hk =>
    refine .intro nofun ?_
    simpa [Expr.thisWord?] using (ht keyword (List.mem_singleton_self _)).lexeme_this hk
  | literal => exact Expr.orderly_of_parts nofun rfl
  | reference => exact Expr.orderly_of_parts nofun rfl
  | _ =>
    refine Expr.orderly_of_parts (fun p hp => parts hp ht ?_) rfl
    simp only [Expr.parts, List.mem_cons, List.not_mem_nil, or_false] at hp
    rcases hp with rfl | rfl | rfl <;> assumption

lemma Expression.orderly {e : Expr} {ts : List Token} (h : Expression e ts)
    (hts : ∀ t ∈ ts, t.Worded) : e.Orderly := by
  refine h.1.orderly fun t ht => ?_
  obtain ⟨u, hu, hfits⟩ := h.2.exists_token ht
  obtain rfl : u = t := hfits
  exact hts u hu

lemma OptExpression.orderly {e : Option Expr} {ts : List Token} (h : OptExpression e ts)
    (hts : ∀ t ∈ ts, t.Worded) : ∀ x ∈ e, x.Orderly := by
  cases h with
  | none => simp
  | some h => simpa using h.orderly hts

/-! ### Statements -/

/-- What is orderly of a nonterminal. -/
def Nonterminal.Orderly : (q : Nonterminal) → q.Tree → Prop
  | declarations, body => ∀ s ∈ body, s.Orderly
  | declaration, s => s.Orderly
  | statement, s => s.Orderly ∧ s.declared? = none
  | function _, d => ∀ s ∈ d.body, s.Orderly
  | members, (methods, statics) => ∀ m ∈ methods ++ statics, ∀ s ∈ m.body, s.Orderly

section
variable {d : Stmt}

open Stmt (declared? newVariable? exprs branches)

/-- A statement that declares no variable. -/
lemma orderly_intro (hexprs : ∀ e ∈ exprs d, e.Orderly)
    (hbranches : ∀ b ∈ branches d, b.Orderly ∧ declared? b = none)
    (hinner : ∀ b ∈ d.inner, b.Orderly) (hd : d.newVariable? = none) : d.Orderly :=
  .intro hexprs (fun b hb => (hbranches b hb).2) (fun b hb => (hbranches b hb).1) hinner
    (by simp [hd])

lemma VarDecl.orderly {ts : List Token} (h : VarDecl d ts) (hts : ∀ t ∈ ts, t.Worded) :
    d.Orderly := by
  cases h with
  | @bare var name semicolon _ hname _ =>
    refine .intro (by simp [exprs]) nofun nofun nofun ?_
    simpa [newVariable?] using (hts name (by simp)).lexeme_ne_this hname
  | @initialized var name equals e ts semicolon _ hname _ he _ =>
    refine .intro ?_ nofun nofun nofun ?_
    · simpa [exprs] using he.orderly fun t ht => hts t (by simp [ht])
    · simpa [newVariable?] using (hts name (by simp)).lexeme_ne_this hname

lemma ExprStmt.orderly {ts : List Token} (h : ExprStmt d ts) (hts : ∀ t ∈ ts, t.Worded) :
    d.Orderly ∧ d.declared? = none := by
  obtain ⟨he, -⟩ := h
  refine ⟨orderly_intro ?_ nofun nofun rfl, rfl⟩
  simpa [exprs] using he.orderly fun t ht => hts t (by simp [ht])

lemma ForFirst.orderly {first : Option Stmt} {ts : List Token} (h : ForFirst first ts)
    (hts : ∀ t ∈ ts, t.Worded) : ∀ s ∈ first, s.Orderly := by
  cases h with
  | var h => simpa using h.orderly hts
  | expression h => simpa using (h.orderly hts).1
  | none => simp

lemma orderly_forLoop {first : Option Stmt} {condition increment : Option Expr} {body : Stmt}
    (hfirst : ∀ s ∈ first, s.Orderly) (hcondition : ∀ e ∈ condition, e.Orderly)
    (hincrement : ∀ e ∈ increment, e.Orderly) (hbody : body.Orderly ∧ body.declared? = none) :
    (forLoop first condition increment body).Orderly ∧
      (forLoop first condition increment body).declared? = none := by
  have block : ∀ body : List Stmt, (∀ s ∈ body, s.Orderly) →
      (Stmt.block body).Orderly ∧ (Stmt.block body).declared? = none :=
    fun body h => ⟨orderly_intro nofun nofun h rfl, rfl⟩
  have round : ∀ e ∈ increment, (Stmt.block [body, .expression e]).Orderly ∧
      (Stmt.block [body, .expression e]).declared? = none := by
    refine fun e he => block _ ?_
    have hstep : (Stmt.expression e).Orderly :=
      orderly_intro (by simpa [exprs] using hincrement e he) nofun nofun rfl
    simp [hbody.1, hstep]
  have rounds : ∀ (c : Expr) (body : Stmt), c.Orderly → body.Orderly ∧ body.declared? = none →
      (Stmt.loop c body).Orderly ∧ (Stmt.loop c body).declared? = none := by
    refine fun c body hc hbody => ⟨orderly_intro ?_ ?_ nofun rfl, rfl⟩
    · simpa [exprs] using hc
    · simpa [branches] using hbody
  have always : (Expr.literal (.boolean true)).Orderly := Expr.orderly_of_parts nofun rfl
  have inside : ∀ s ∈ first, ∀ r : Stmt, r.Orderly ∧ r.declared? = none →
      (Stmt.block [s, r]).Orderly ∧ (Stmt.block [s, r]).declared? = none :=
    fun s hs r hr => block _ (by simp [hfirst s hs, hr.1])
  unfold forLoop
  cases first <;> cases condition <;> cases increment <;> dsimp only
  all_goals
    first
    | refine inside _ rfl _ (rounds _ _ ?_ ?_)
    | refine rounds _ _ ?_ ?_
    · first | exact always | exact hcondition _ rfl
    · first | exact hbody | exact round _ rfl

lemma Derives.orderly {strict o : Bool} {q : Nonterminal} {x : q.Tree} {ts : List Token}
    (h : Derives strict q x o ts) (hts : ∀ t ∈ ts, t.Worded) : q.Orderly x := by
  induction h with
  | nil => nofun
  | cons _ _ ih ih' =>
    obtain ⟨hts, hus⟩ := List.forall_mem_append.mp hts
    exact List.forall_mem_cons.mpr ⟨ih hts, ih' hus⟩
  | classDecl _ _ _ _ _ ih =>
    refine orderly_intro nofun nofun ?_ rfl
    have hmembers := ih fun t ht => hts t (by simp [ht])
    simp only [Stmt.inner, List.mem_flatMap]
    rintro b ⟨m, hm, hb⟩
    exact hmembers m hm b hb
  | funDecl _ _ ih => exact orderly_intro nofun nofun (ih fun t ht => hts t (by simp [ht])) rfl
  | varDecl h => exact h.orderly hts
  | ofStatement _ ih => exact (ih hts).1
  | noMembers => nofun
  | instanceMethod _ _ ih ih' =>
    obtain ⟨hts, hus⟩ := List.forall_mem_append.mp hts
    exact List.forall_mem_cons.mpr ⟨ih hts, ih' hus⟩
  | staticMethod _ _ _ ih ih' =>
    obtain ⟨hts, hus⟩ := List.forall_mem_append.mp (List.forall_mem_cons.mp hts).2
    have hm := ih hts
    have hrest := ih' hus
    simp only [Nonterminal.Orderly, List.mem_append, List.mem_cons] at hm hrest ⊢
    rintro x (hx | rfl | hx)
    · exact hrest x (.inl hx)
    · exact hm
    · exact hrest x (.inr hx)
  | function _ _ _ _ _ _ _ ih => exact ih fun t ht => hts t (by simp [ht])
  | getter _ _ _ _ ih => exact ih fun t ht => hts t (by simp [ht])
  | exprStmt h => exact h.orderly hts
  | printStmt _ he _ =>
    refine ⟨orderly_intro ?_ nofun nofun rfl, rfl⟩
    simpa [exprs] using he.orderly fun t ht => hts t (by simp [ht])
  | ifStmt _ _ hc _ _ ih =>
    refine ⟨orderly_intro ?_ ?_ nofun rfl, rfl⟩
    · simpa [exprs] using hc.orderly fun t ht => hts t (by simp [ht])
    · exact List.forall_mem_singleton.mpr (ih fun t ht => hts t (by simp [ht]))
  | ifElse _ _ hc _ _ _ _ _ ih ih' =>
    have ht := ih fun t ht => hts t (by simp [ht])
    have he := ih' fun t ht => hts t (by simp [ht])
    refine ⟨orderly_intro ?_ ?_ nofun rfl, rfl⟩
    · simpa [exprs] using hc.orderly fun t ht => hts t (by simp [ht])
    · simpa [branches] using ⟨ht, he⟩
  | whileStmt _ _ hc _ _ ih =>
    refine ⟨orderly_intro ?_ ?_ nofun rfl, rfl⟩
    · simpa [exprs] using hc.orderly fun t ht => hts t (by simp [ht])
    · exact List.forall_mem_singleton.mpr (ih fun t ht => hts t (by simp [ht]))
  | forStmt _ _ hfirst hcondition _ hincrement _ _ ih =>
    refine orderly_forLoop ?_ ?_ ?_ (ih fun t ht => hts t (by simp [ht]))
    · exact hfirst.orderly fun t ht => hts t (by simp [ht])
    · exact hcondition.orderly fun t ht => hts t (by simp [ht])
    · exact hincrement.orderly fun t ht => hts t (by simp [ht])
  | breakStmt => exact ⟨orderly_intro nofun nofun nofun rfl, rfl⟩
  | returnStmt _ he _ =>
    refine ⟨orderly_intro ?_ nofun nofun rfl, rfl⟩
    simpa [exprs] using he.orderly fun t ht => hts t (by simp [ht])
  | block _ _ _ ih =>
    exact ⟨orderly_intro nofun nofun (ih fun t ht => hts t (by simp [ht])) rfl, rfl⟩

end

end Grammar

end Lox
