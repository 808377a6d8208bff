import Lox.Proofs.Grammar.Replacement

/-!
The texts of for loops, and the blocks with while loops that they are short for.
-/

namespace Lox.Grammar

open Scope

/-- What comes first is admissible anywhere. -/
lemma ForFirst.admissible {first : Option Stmt} {ts : List Token} (h : ForFirst first ts)
    {b b' : Bool} (hs : ∀ s ∈ first, Admissible b s) : ∀ s ∈ first, Admissible b' s := by
  cases h with
  | none => exact nofun
  | var hd =>
    rintro s ⟨⟩
    cases hd <;> cases hs _ rfl with | declare h => exact .declare h
  | expression hd =>
    rintro s ⟨⟩
    cases hd with | intro => exact admissible_expression.mpr (admissible_expression.mp (hs _ rfl))

/-- A single statement as a body. -/
lemma Derives.single {s : Stmt} {o : Bool} {ts : List Token} (h : Derives true .statement s o ts) :
    Derives true .declarations [s] false ts := by
  simpa using Derives.cons (.ofStatement h) .nil

/-- A for loop: the parts of its text, and what they are the text of. The body has a flag which says
whether it ends with an `if` that an `else` after it could belong to. -/
structure ForText where
  word : Token
  opening : Token
  first : Option Stmt
  firstText : List Token
  condition : Option Expr
  conditionText : List Token
  semicolon : Token
  increment : Option Expr
  incrementText : List Token
  closing : Token
  body : Stmt
  isOpen : Bool
  bodyText : List Token
  word_kind : word.kind = .keyword .kwFor
  opening_kind : opening.kind = .symbol .leftParen
  first_derives : ForFirst first firstText
  condition_derives : OptExpression condition conditionText
  semicolon_kind : semicolon.kind = .symbol .semicolon
  increment_derives : OptExpression increment incrementText
  closing_kind : closing.kind = .symbol .rightParen
  body_derives : Derives true .statement body isOpen bodyText

namespace ForText

/-- The loop as it is read. -/
def tree (l : ForText) : Stmt := forLoop l.first l.condition l.increment l.body

def tokens (l : ForText) : List Token :=
  l.word :: l.opening :: (l.firstText ++ (l.conditionText ++
    l.semicolon :: (l.incrementText ++ l.closing :: l.bodyText)))

end ForText

/-- A symbol as it is written. -/
def symbolToken (s : Symbol) : Token := ⟨.symbol s, s.text, 0⟩

namespace ForText

variable (l : ForText)

lemma derives : Derives true .statement l.tree l.isOpen l.tokens :=
  .forStmt l.word_kind l.opening_kind l.first_derives l.condition_derives l.semicolon_kind
    l.increment_derives l.closing_kind l.body_derives

/-! ### The block with the while loop -/

end ForText

/-! ### Programs -/

/-- A statement that begins with the word `for` is a loop. -/
lemma Derives.exists_forText {d : Stmt} {o : Bool} {word : Token} {us : List Token}
    (h : Derives true .statement d o (word :: us)) (hword : word.kind = .keyword .kwFor) :
    ∃ l : ForText, l.tree = d ∧ l.tokens = word :: us ∧ l.isOpen = o := by
  have other {k : Kind} (hk : word.kind = k) (hne : k ≠ .keyword .kwFor) : False :=
    hne (hk.symm.trans hword)
  generalize hts : word :: us = ts at h
  cases h with
  | forStmt hword hopening hfirst hcondition hsemicolon hincrement hclosing hbody =>
    exact ⟨⟨_, _, _, _, _, _, _, _, _, _, _, _, _, hword, hopening, hfirst, hcondition, hsemicolon,
      hincrement, hclosing, hbody⟩, rfl, rfl, rfl⟩
  | exprStmt h =>
    obtain ⟨t, ts, rfl, ht⟩ := h.begins
    obtain ⟨rfl, -⟩ := List.cons.inj hts
    rw [hword] at ht
    cases ht
  | printStmt h | ifStmt h | ifElse h | whileStmt h | breakStmt h | returnStmt h | block h =>
    obtain ⟨rfl, -⟩ := List.cons.inj hts
    exact (other h nofun).elim

/-- Each `for` in a program that is accepted is the first word of such a loop. -/
theorem exists_forText {tokens : List Token} {i : NodeId} {body : List Stmt}
    (hbody : (program tokens i).result = .ok body) {word : Token}
    (hword : word.kind = .keyword .kwFor) {pre rest : List Token}
    (htokens : beforeEnd tokens = pre ++ word :: rest) :
    ∃ (l : ForText) (post : List Token), word :: rest = l.tokens ++ post ∧
      Admissible true l.tree ∧ (l.isOpen → NoElse post) := by
  have hread := program_sound hbody
  obtain ⟨d, o, us, post, hus, hd, helse, -, hadm, -⟩ :=
    hread.derives.standing hword htokens.symm
  obtain ⟨b, hb⟩ := hadm false hread.admissible
  obtain ⟨t, us', rfl, -⟩ := hd.starts_of_statement
  obtain ⟨rfl, -⟩ := List.cons.inj hus
  obtain ⟨l, rfl, hl, rfl⟩ := hd.exists_forText hword
  exact ⟨l, post, hl ▸ hus, hb.in_loop, helse⟩

end Lox.Grammar
