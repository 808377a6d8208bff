import Lox.Complaint
import Lox.Table
import Lox.Tree.Stmt

/-!
The locals of one scope.
-/

namespace Lox.Scope

/-- How far the life of a local has come. -/
inductive Status
  | declared
  | defined
  | read
deriving DecidableEq

/-- A local with the token that declared it. -/
structure Local where
  name : Token
  status : Status
deriving DecidableEq

/-- The locals declared directly in one scope, in the order of their declarations. -/
abbrev Layer := Table Local

namespace Layer

/-- Adds a local that has no value yet. -/
def declare (l : Layer) (name : Token) : Layer :=
  l.insert name.lexeme ⟨name, .declared⟩

def status? (l : Layer) (name : String) : Option Status :=
  (l.get? name).map (·.status)

/-- Moves a local on to another status. -/
def mark (l : Layer) (name : String) (status : Status) : Layer :=
  match l.get? name with
  | some v => l.insert name { v with status }
  | none => l

/-- The layer around the methods of a class: `this`, which need not be read. -/
def ofThis (className : Token) : Layer :=
  [("this", ⟨className, .read⟩)]

/-! ### Locals that are never read -/

/-- Source order of names: by line, and within a line by spelling. -/
def precedes (a b : Token) : Bool :=
  a.line < b.line || (a.line = b.line && a.lexeme < b.lexeme)

/-- Puts a name into a list in source order. -/
def place (t : Token) : List Token → List Token
  | [] => [t]
  | u :: rest => if precedes u t then u :: place t rest else t :: u :: rest

/-- The names that have a value and were never read, in source order. -/
def unread (l : Layer) : List Token :=
  (l.filter fun (_, v) => v.status = .defined).foldr (fun (_, v) ts => place v.name ts) []

end Layer

end Lox.Scope
