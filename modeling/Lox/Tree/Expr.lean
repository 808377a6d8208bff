import Lox.Token

/-!
Expressions.

Every node that names a variable has a number of its own, so that two occurrences of one name can
be told apart. Operators and names keep their tokens, which carry the lines of later complaints.
-/

namespace Lox

/-- The number of a node that refers to a variable. -/
abbrev NodeId := Nat

inductive Literal
  | number (x : Float)
  | string (s : String)
  | boolean (b : Bool)
  | nil
deriving DecidableEq

inductive Expr
  | literal (l : Literal)
  | group (inner : Expr)
  | unary (op : Token) (operand : Expr)
  | binary (left : Expr) (op : Token) (right : Expr)
  /-- A binary operator that need not evaluate its right operand. -/
  | logical (left : Expr) (op : Token) (right : Expr)
  | conditional (condition whenTrue whenFalse : Expr)
  | reference (id : NodeId) (name : Token)
  | assign (id : NodeId) (name : Token) (value : Expr)
  /-- A call keeps its closing parenthesis. -/
  | call (callee : Expr) (paren : Token) (arguments : List Expr)
  | property (object : Expr) (name : Token)
  | setProperty (object : Expr) (name : Token) (value : Expr)
  | this (id : NodeId) (keyword : Token)

instance : Inhabited Expr := ⟨.literal .nil⟩

end Lox
