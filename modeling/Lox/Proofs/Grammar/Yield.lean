import Mathlib.Data.List.Forall2
import Mathlib.Order.Lattice
import Mathlib.Tactic.Common
import Lox.Tree.Expr

/-!
The tokens of an expression, read off its tree from left to right.

A tree keeps its names, operators and closing parentheses as tokens. Of every other token it
determines only the kind, so its yield is a list of marks, each of which fits one token or more.
-/

namespace Lox

/-- What a tree says about one token of its text. -/
inductive Mark
  | token (t : Token)
  | kind (k : Kind)

namespace Mark

def Fits : Mark → Token → Prop
  | token t, t' => t' = t
  | kind k, t' => t'.kind = k

def symbol (s : Symbol) : Mark := kind (.symbol s)

/-- The kind of every token that fits. -/
def kindOf : Mark → Kind
  | token t => t.kind
  | kind k => k

lemma Fits.kind_eq {m : Mark} {t : Token} (h : m.Fits t) : t.kind = m.kindOf := by
  cases m with
  | token t' => rw [show t = t' from h]; rfl
  | kind k => exact h

end Mark

/-- The tokens fit the marks, one by one. -/
def Spells (marks : List Mark) (tokens : List Token) : Prop := List.Forall₂ Mark.Fits marks tokens

section
variable {m : Mark} {xs ys : List Mark} {t : Token} {ts us : List Token}

@[simp] lemma spells_nil : Spells [] ts ↔ ts = [] := List.forall₂_nil_left_iff

@[simp] lemma spells_cons :
    Spells (m :: xs) ts ↔ ∃ t us, m.Fits t ∧ Spells xs us ∧ ts = t :: us := by
  refine List.forall₂_cons_left_iff.trans ?_
  constructor
  · rintro ⟨t, us, h, hs, rfl⟩; exact ⟨t, us, h, hs, rfl⟩
  · rintro ⟨t, us, h, hs, rfl⟩; exact ⟨t, us, h, hs, rfl⟩

@[simp] lemma spells_append :
    Spells (xs ++ ys) ts ↔ ∃ us vs, Spells xs us ∧ Spells ys vs ∧ ts = us ++ vs := by
  induction xs generalizing ts with
  | nil => simp
  | cons m xs ih =>
    simp only [List.cons_append, spells_cons, ih]
    constructor
    · rintro ⟨t, _, h, ⟨us, vs, hu, hv, rfl⟩, rfl⟩
      exact ⟨t :: us, vs, ⟨t, us, h, hu, rfl⟩, hv, rfl⟩
    · rintro ⟨_, vs, ⟨t, us, h, hu, rfl⟩, hv, rfl⟩
      exact ⟨t, us ++ vs, h, ⟨us, vs, hu, hv, rfl⟩, rfl⟩

lemma Spells.append (h : Spells xs ts) (h' : Spells ys us) : Spells (xs ++ ys) (ts ++ us) :=
  spells_append.mpr ⟨ts, us, h, h', rfl⟩

lemma Spells.cons (h : m.Fits t) (h' : Spells xs ts) : Spells (m :: xs) (t :: ts) :=
  List.Forall₂.cons h h'

lemma Spells.token (t : Token) (h : Spells xs ts) : Spells (.token t :: xs) (t :: ts) :=
  h.cons rfl

lemma Spells.symbol {s : Symbol} (ht : t.kind = .symbol s) (h : Spells xs ts) :
    Spells (.symbol s :: xs) (t :: ts) :=
  h.cons ht

lemma Spells.nil : Spells [] [] := List.Forall₂.nil

lemma Spells.exists_mark (h : Spells xs ts) (ht : t ∈ ts) : ∃ m ∈ xs, m.Fits t := by
  induction h with
  | nil => exact absurd ht List.not_mem_nil
  | cons hm _ ih =>
    rcases List.mem_cons.mp ht with rfl | ht
    · exact ⟨_, List.mem_cons_self .., hm⟩
    · obtain ⟨m, hm, hfits⟩ := ih ht
      exact ⟨m, List.mem_cons_of_mem _ hm, hfits⟩

lemma Spells.exists_token (h : Spells xs ts) (hm : m ∈ xs) : ∃ t ∈ ts, m.Fits t := by
  induction h with
  | nil => exact absurd hm List.not_mem_nil
  | cons ht _ ih =>
    rcases List.mem_cons.mp hm with rfl | hm
    · exact ⟨_, List.mem_cons_self .., ht⟩
    · obtain ⟨t, ht, hfits⟩ := ih hm
      exact ⟨t, List.mem_cons_of_mem _ ht, hfits⟩

lemma spells_singleton : Spells [m] ts ↔ ∃ t, m.Fits t ∧ ts = [t] := by
  simp only [spells_cons, spells_nil]
  constructor
  · rintro ⟨t, _, h, rfl, rfl⟩; exact ⟨t, h, rfl⟩
  · rintro ⟨t, h, rfl⟩; exact ⟨t, _, h, rfl, rfl⟩

end

/-- The kind of the token of a literal. -/
def Literal.kind : Literal → Kind
  | .number x => .number x
  | .string s => .string s
  | .boolean true => .keyword .kwTrue
  | .boolean false => .keyword .kwFalse
  | .nil => .keyword .kwNil

namespace Expr

mutual

/-- The text of an expression, from left to right. -/
def yield : Expr → List Mark
  | literal l => [.kind l.kind]
  | group e => .symbol .leftParen :: (e.yield ++ [.symbol .rightParen])
  | unary op e => .token op :: e.yield
  | binary l op r => l.yield ++ .token op :: r.yield
  | logical l op r => l.yield ++ .token op :: r.yield
  | conditional c t e => c.yield ++ .symbol .question :: (t.yield ++ .symbol .colon :: e.yield)
  | reference _ name => [.token name]
  | assign _ name value => .token name :: .symbol .equal :: value.yield
  | call callee paren arguments =>
    callee.yield ++ .symbol .leftParen :: (yieldEach arguments ++ [.token paren])
  | property object name => object.yield ++ [.symbol .dot, .token name]
  | setProperty object name value =>
    object.yield ++ .symbol .dot :: .token name :: .symbol .equal :: value.yield
  | this _ keyword => [.token keyword]

/-- The texts of expressions in order, with commas between them. -/
def yieldEach : List Expr → List Mark
  | [] => []
  | [e] => e.yield
  | e :: e' :: es => e.yield ++ .symbol .comma :: yieldEach (e' :: es)

end

mutual

/-- The length of the longest argument list. -/
def widest : Expr → ℕ
  | literal _ => 0
  | group e => e.widest
  | unary _ e => e.widest
  | binary l _ r => max l.widest r.widest
  | logical l _ r => max l.widest r.widest
  | conditional c t e => max c.widest (max t.widest e.widest)
  | reference .. => 0
  | assign _ _ value => value.widest
  | call callee _ arguments => max callee.widest (max arguments.length (widestOf arguments))
  | property object _ => object.widest
  | setProperty object _ value => max object.widest value.widest
  | this .. => 0

def widestOf : List Expr → ℕ
  | [] => 0
  | e :: es => max e.widest (widestOf es)

end

mutual

/-- The expression with all its numbers forgotten. -/
def unnumbered : Expr → Expr
  | literal l => literal l
  | group e => group e.unnumbered
  | unary op e => unary op e.unnumbered
  | binary l op r => binary l.unnumbered op r.unnumbered
  | logical l op r => logical l.unnumbered op r.unnumbered
  | conditional c t e => conditional c.unnumbered t.unnumbered e.unnumbered
  | reference _ name => reference 0 name
  | assign _ name value => assign 0 name value.unnumbered
  | call callee paren arguments => call callee.unnumbered paren (unnumberedEach arguments)
  | property object name => property object.unnumbered name
  | setProperty object name value => setProperty object.unnumbered name value.unnumbered
  | this _ keyword => this 0 keyword

def unnumberedEach : List Expr → List Expr
  | [] => []
  | e :: es => e.unnumbered :: unnumberedEach es

end

mutual

/-- The numbers in an expression, in the order in which they are given out. -/
def ids : Expr → List NodeId
  | literal _ => []
  | group e => e.ids
  | unary _ e => e.ids
  | binary l _ r => l.ids ++ r.ids
  | logical l _ r => l.ids ++ r.ids
  | conditional c t e => c.ids ++ (t.ids ++ e.ids)
  | reference id _ => [id]
  | assign id _ value => value.ids ++ [id]
  | call callee _ arguments => callee.ids ++ idsOf arguments
  | property object _ => object.ids
  | setProperty object _ value => object.ids ++ value.ids
  | this id _ => [id]

def idsOf : List Expr → List NodeId
  | [] => []
  | e :: es => e.ids ++ idsOf es

end

/-- The texts of expressions in order, each with a comma after it. -/
def yieldBefore (es : List Expr) : List Mark := es.flatMap fun e => e.yield ++ [.symbol .comma]

lemma yieldEach_append_singleton (es : List Expr) (e : Expr) :
    yieldEach (es ++ [e]) = yieldBefore es ++ e.yield := by
  induction es with
  | nil => simp [yieldEach, yieldBefore]
  | cons a es ih =>
    cases es with
    | nil => simp [yieldEach, yieldBefore]
    | cons b es =>
      simp only [yieldBefore, List.cons_append, List.flatMap_cons] at ih ⊢
      simp [yieldEach, ih]

lemma widestOf_append (es es' : List Expr) :
    widestOf (es ++ es') = max (widestOf es) (widestOf es') := by
  induction es with
  | nil => simp [widestOf]
  | cons e es ih => simp [widestOf, ih, max_assoc]

lemma widest_le_widestOf {e : Expr} {es : List Expr} (h : e ∈ es) : e.widest ≤ widestOf es := by
  induction es with
  | nil => exact absurd h List.not_mem_nil
  | cons a es ih =>
    rcases List.mem_cons.mp h with rfl | h
    · exact le_max_left _ _
    · exact (ih h).trans (le_max_right _ _)

lemma idsOf_append (es es' : List Expr) : idsOf (es ++ es') = idsOf es ++ idsOf es' := by
  induction es with
  | nil => simp [idsOf]
  | cons e es ih => simp [idsOf, ih]

lemma unnumberedEach_append (es es' : List Expr) :
    unnumberedEach (es ++ es') = unnumberedEach es ++ unnumberedEach es' := by
  induction es with
  | nil => simp [unnumberedEach]
  | cons e es ih => simp [unnumberedEach, ih]

end Expr

/-! ### Numbers not used before -/

/-- The numbers are different, and come from an interval. -/
structure Fresh (i j : NodeId) (ids : List NodeId) : Prop where
  le : i ≤ j
  nodup : ids.Nodup
  bounds : ∀ x ∈ ids, i ≤ x ∧ x < j

namespace Fresh

variable {i j k : NodeId} {xs ys : List NodeId}

lemma nil (h : i ≤ j) : Fresh i j [] := ⟨h, List.nodup_nil, by simp⟩

lemma singleton (i : NodeId) : Fresh i (i + 1) [i] := ⟨Nat.le_succ i, by simp, by simp⟩

lemma append (h : Fresh i j xs) (h' : Fresh j k ys) : Fresh i k (xs ++ ys) := by
  refine ⟨h.le.trans h'.le, ?_, ?_⟩
  · refine List.nodup_append.mpr ⟨h.nodup, h'.nodup, ?_⟩
    rintro a ha b hb rfl
    exact absurd (h'.bounds _ hb).1 (not_le.mpr (h.bounds _ ha).2)
  · intro x hx
    rcases List.mem_append.mp hx with hx | hx
    · exact ⟨(h.bounds x hx).1, lt_of_lt_of_le (h.bounds x hx).2 h'.le⟩
    · exact ⟨h.le.trans (h'.bounds x hx).1, (h'.bounds x hx).2⟩

lemma perm (h : Fresh i j xs) (hp : xs.Perm ys) : Fresh i j ys :=
  ⟨h.le, hp.nodup_iff.mp h.nodup, fun x hx => h.bounds x (hp.mem_iff.mpr hx)⟩

lemma sublist (h : Fresh i j xs) (hs : ys.Sublist xs) : Fresh i j ys :=
  ⟨h.le, h.nodup.sublist hs, fun x hx => h.bounds x (hs.mem hx)⟩

/-- Numbers that came before may be given up. -/
lemma widen (h : Fresh j k ys) (hij : i ≤ j) : Fresh i k ys :=
  (nil hij).append h

end Fresh

end Lox
