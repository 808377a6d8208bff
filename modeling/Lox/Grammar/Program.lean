import Lox.Grammar.Statement

/-!
Whole inputs: a program, a single expression, or a line that may be either.

Only the tokens before the first end of input count. Reading yields a tree, or every complaint in
the order in which they arose.
-/

namespace Lox.Grammar

/-- What a tree was read for, and the first number left for later nodes. -/
structure Parsed (α : Type) where
  result : Except (List Complaint) α
  nextId : NodeId

/-- A line of input: an expression by itself, or statements. -/
inductive Input
  | expression (e : Expr)
  | statements (body : List Stmt)

/-- The end of input of a list of tokens. One that is missing stands on the line of the last
token. -/
def stopToken (tokens : List Token) : Token :=
  match tokens.find? (·.kind.isEof) with
  | some t => t
  | none => ⟨.eof, "", (tokens.getLast?.map (·.line)).getD 1⟩

theorem stopToken_kind (tokens : List Token) : (stopToken tokens).kind = .eof := by
  unfold stopToken
  split
  · rename_i t h
    have hk : t.kind.isEof := by simpa using List.find?_some h
    exact Kind.eq_eof_of_isEof hk
  · rfl

/-- A cursor at the front of a list of tokens. -/
def Cursor.start (tokens : List Token) (firstId : NodeId) : Cursor :=
  { rest := tokens.takeWhile (!·.kind.isEof)
    stop := stopToken tokens
    stop_kind := stopToken_kind tokens
    nextId := firstId
    complaints := [] }

/-- Enough steps to read any list of tokens: fewer than thirty-two between one token and the
next. -/
def allowance (tokens : List Token) : Nat := 32 * (tokens.length + 2)

/-- The tree, unless there are complaints. -/
def Cursor.finish {α : Type} (c : Cursor) (a : α) : Parsed α :=
  { result := if c.complaints.isEmpty then .ok a else .error c.complaints.reverse
    nextId := c.nextId }

/-- The complaints, of which the last stopped the reading. -/
def Cursor.stopped {α : Type} (c : Cursor) (e : Complaint) : Parsed α :=
  ⟨.error (e :: c.complaints).reverse, c.nextId⟩

/-- Reads statements up to the end of input. -/
def program (tokens : List Token) (firstId : NodeId) : Parsed (List Stmt) :=
  match declarations (allowance tokens) [] (.start tokens firstId) with
  | .done body c => c.finish body
  | .failed e c => c.stopped e
  | .exhausted => ⟨.error [], firstId⟩

/-- Reads one expression that reaches to the end of input. -/
def singleExpression (tokens : List Token) (firstId : NodeId) : Parsed Expr :=
  match expression (allowance tokens) (.start tokens firstId) with
  | .done e c =>
    if c.rest.isEmpty then c.finish e
    else c.stopped (complaint c.front .expectedEnd)
  | .failed e c => c.stopped e
  | .exhausted => ⟨.error [], firstId⟩

/-- Reads a line. It is an expression if one reaches to the end of input, and else statements. The
numbers of a given-up expression are not used again. -/
def line (tokens : List Token) (firstId : NodeId) : Parsed Input :=
  let asStatements (firstId : NodeId) : Parsed Input :=
    let p := program tokens firstId
    ⟨p.result.map .statements, p.nextId⟩
  match expression (allowance tokens) (.start tokens firstId) with
  | .done e c => if c.rest.isEmpty then c.finish (.expression e) else asStatements c.nextId
  | .failed _ c => asStatements c.nextId
  | .exhausted => asStatements firstId

end Lox.Grammar
