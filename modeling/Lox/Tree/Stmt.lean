import Lox.Tree.Expr

/-!
Statements and the declarations of functions.
-/

namespace Lox

mutual

inductive Stmt
  | expression (e : Expr)
  | print (e : Expr)
  | declare (name : Token) (initial : Option Expr)
  | block (body : List Stmt)
  | branch (condition : Expr) (whenTrue : Stmt) (whenFalse : Option Stmt)
  | loop (condition : Expr) (body : Stmt)
  | breakLoop (keyword : Token)
  | function (decl : FunctionDecl)
  | returnFrom (keyword : Token) (value : Option Expr)
  | classDecl (name : Token) (methods statics : List FunctionDecl)

/-- A function or method. One without a parameter list is a getter, which runs when it is read. -/
inductive FunctionDecl
  | mk (name : Token) (params : Option (List Token)) (body : List Stmt)

end

instance : Inhabited Stmt := ⟨.block []⟩

namespace FunctionDecl

def name : FunctionDecl → Token
  | mk name _ _ => name

def params : FunctionDecl → Option (List Token)
  | mk _ params _ => params

def body : FunctionDecl → List Stmt
  | mk _ _ body => body

def isGetter (d : FunctionDecl) : Bool := d.params.isNone

/-- The parameters; a getter has none. -/
def paramList (d : FunctionDecl) : List Token := d.params.getD []

def arity (d : FunctionDecl) : Nat := d.paramList.length

end FunctionDecl

end Lox
