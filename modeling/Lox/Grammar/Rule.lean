import Lox.Complaint
import Lox.Tree.Stmt

/-!
Rules of the grammar, as functions on a cursor.

A cursor holds the tokens that are left, without the end of input, which is kept apart. A rule
reads from the front. It succeeds, or it fails with a complaint and leaves the cursor where the
complaint arose, or its allowance of steps runs out. Complaints that do not stop a rule are
collected in the cursor.
-/

namespace Lox.Grammar

structure Cursor where
  rest : List Token
  /-- The token that stands for the end of input. -/
  stop : Token
  stop_kind : stop.kind = .eof
  /-- The number for the next node that refers to a variable. -/
  nextId : NodeId
  /-- The complaints so far, the latest first. -/
  complaints : List Complaint

inductive Outcome (α : Type)
  | done (a : α) (c : Cursor)
  | failed (e : Complaint) (c : Cursor)
  | exhausted

/-- A rule of the grammar that yields an `α`. -/
def Rule (α : Type) := Cursor → Outcome α

namespace Rule

variable {α β : Type}

@[always_inline, inline]
protected def pure (a : α) : Rule α := fun c => .done a c

@[always_inline, inline]
protected def bind (r : Rule α) (f : α → Rule β) : Rule β := fun c =>
  match r c with
  | .done a c => f a c
  | .failed e c => .failed e c
  | .exhausted => .exhausted

@[always_inline]
instance : Monad Rule where
  pure := Rule.pure
  bind := Rule.bind

/-- The allowance of steps has run out. -/
def exhausted : Rule α := fun _ => .exhausted

theorem bind_apply (r : Rule α) (f : α → Rule β) (c : Cursor) :
    (r >>= f) c =
      match r c with
      | .done a c => f a c
      | .failed e c => .failed e c
      | .exhausted => .exhausted :=
  rfl

/-- A rule made of two succeeds if both do, one after the other. -/
theorem bind_eq_done {r : Rule α} {f : α → Rule β} {c c' : Cursor} {b : β} :
    (r >>= f) c = .done b c' ↔ ∃ a c₁, r c = .done a c₁ ∧ f a c₁ = .done b c' := by
  rw [bind_apply]
  cases r c with
  | done a c₁ =>
    constructor
    · exact fun h => ⟨a, c₁, rfl, h⟩
    · rintro ⟨_, _, h, hf⟩
      cases h
      exact hf
  | failed e c₁ => simp
  | exhausted => simp

theorem pure_eq_done {a b : α} {c c' : Cursor} :
    (pure a : Rule α) c = .done b c' ↔ b = a ∧ c' = c := by
  change Outcome.done a c = .done b c' ↔ _
  simp [eq_comm]

theorem map_eq_done {r : Rule α} {f : α → β} {c c' : Cursor} {b : β} :
    (f <$> r) c = .done b c' ↔ ∃ a, r c = .done a c' ∧ f a = b := by
  change (r >>= (pure ∘ f)) c = .done b c' ↔ _
  simp only [bind_eq_done, Function.comp, pure_eq_done]
  constructor
  · rintro ⟨a, c₁, h, rfl, rfl⟩
    exact ⟨a, h, rfl⟩
  · rintro ⟨a, h, rfl⟩
    exact ⟨a, c', h, rfl, rfl⟩

end Rule

/-- The complaint that a fault at a token gives rise to. -/
def complaint (t : Token) (f : Fault) : Complaint :=
  .grammar t.line (.of t) f

/-- The token at the front, or the end of input. -/
def Cursor.front (c : Cursor) : Token := c.rest.headD c.stop

def peek : Rule Token := fun c => .done c.front c

def atEnd : Rule Bool := fun c => .done c.rest.isEmpty c

/-- Whether the token at the front is of some kind. The end of input is of none. -/
def sees (p : Kind → Bool) : Rule Bool := fun c =>
  .done (match c.rest with
    | [] => false
    | t :: _ => p t.kind) c

/-- Moves past the token at the front. -/
def advance : Rule PUnit := fun c => .done ⟨⟩ { c with rest := c.rest.tail }

/-- Takes the token at the front if it is of some kind. -/
def accept (p : Kind → Bool) : Rule (Option Token) := fun c =>
  match c.rest with
  | [] => .done none c
  | t :: rest => if p t.kind then .done (some t) { c with rest } else .done none c

/-- Fails at the front. -/
def fail {α : Type} (f : Fault) : Rule α := fun c => .failed (complaint c.front f) c

/-- Takes the token at the front, which has to be of some kind. -/
def expect (p : Kind → Bool) (f : Fault) : Rule Token := fun c =>
  match c.rest with
  | [] => .failed (complaint c.stop f) c
  | t :: rest => if p t.kind then .done t { c with rest } else .failed (complaint t f) c

def acceptSymbol (s : Symbol) : Rule (Option Token) := accept (Kind.isSymbol s)

def seesSymbol (s : Symbol) : Rule Bool := sees (Kind.isSymbol s)

def acceptKeyword (k : Keyword) : Rule (Option Token) := accept (Kind.isKeyword k)

def expectSymbol (s : Symbol) (site : Site) : Rule Token :=
  expect (Kind.isSymbol s) (.expectedSymbol s site)

def expectName (n : Named) : Rule Token :=
  expect Kind.isIdentifier (.expectedName n)

/-- Records a complaint and goes on. -/
def report (t : Token) (f : Fault) : Rule PUnit := fun c =>
  .done ⟨⟩ { c with complaints := complaint t f :: c.complaints }

/-- Records a complaint unless a condition holds, and goes on. -/
def require (b : Bool) (t : Token) (f : Fault) : Rule PUnit :=
  if b then pure ⟨⟩ else report t f

/-- What a rule reads, or else `a` if some symbol stands at the front. -/
def unlessSees {α : Type} (s : Symbol) (a : α) (r : Rule α) : Rule α := do
  if ← seesSymbol s then pure a else r

/-- A number for a node, not used before. -/
def freshId : Rule NodeId := fun c => .done c.nextId { c with nextId := c.nextId + 1 }

end Lox.Grammar
