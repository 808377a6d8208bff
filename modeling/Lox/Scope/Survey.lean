import Lox.Scope.Local

/-!
A survey of the names in a tree: which references find which scopes, and what is wrong.

The survey walks a tree in the order of execution. Blocks, functions and the methods of a class
open a layer; names at the top level have no layer and are not tracked.
-/

namespace Lox.Scope

/-- One reference to a name: how many layers outward it was found, or nothing if it is global. -/
structure Lookup where
  id : NodeId
  name : String
  depth : Option Nat
deriving DecidableEq

/-- The open layers, innermost first, and what was found so far, latest first. -/
structure Survey where
  layers : List Layer
  lookups : List Lookup
  complaints : List Complaint

/-- What the code around a statement is the body of. -/
inductive Body
  | topLevel
  | function
  | method
  | initializer
deriving DecidableEq

/-- Where a statement stands: in which body, and whether within a class. -/
structure Context where
  body : Body
  inClass : Bool

namespace Survey

def empty : Survey := ⟨[], [], []⟩

def complain (s : Survey) (t : Token) (f : Fault) : Survey :=
  { s with complaints := .scope t.line (.of t) f :: s.complaints }

def openLayer (s : Survey) (l : Layer) : Survey :=
  { s with layers := l :: s.layers }

/-- Leaves the innermost layer, with a complaint for each local that was never read. -/
def closeLayer (s : Survey) : Survey :=
  match s.layers with
  | [] => s
  | l :: rest => l.unread.foldl (·.complain · .neverRead) { s with layers := rest }

/-- Declares a name in the innermost layer. A second declaration is reported, and the first one
stays. -/
def declare (s : Survey) (name : Token) : Survey :=
  match s.layers with
  | [] => s
  | l :: rest =>
    if l.contains name.lexeme then s.complain name .alreadyDeclared
    else { s with layers := l.declare name :: rest }

/-- Gives a name of the innermost layer its value, if it is waiting for one. -/
def define (s : Survey) (name : Token) : Survey :=
  match s.layers with
  | [] => s
  | l :: rest =>
    if l.status? name.lexeme = some .declared then
      { s with layers := l.mark name.lexeme .defined :: rest }
    else s

/-- A name whose value is there as soon as it is declared. -/
def introduce (s : Survey) (name : Token) : Survey :=
  (s.declare name).define name

/-- How many layers outward a name is found. -/
def depth? (s : Survey) (name : String) : Option Nat :=
  s.layers.findIdx? (·.contains name)

/-- Notes where a reference leads, and that it reads if it does. -/
def refer (s : Survey) (id : NodeId) (name : String) (reads : Bool) : Survey :=
  let depth := s.depth? name
  let layers :=
    match depth, reads with
    | some d, true => s.layers.modify d (·.mark name .read)
    | _, _ => s.layers
  { s with layers, lookups := ⟨id, name, depth⟩ :: s.lookups }

/-- Whether a name of the innermost layer is waiting for its value. -/
def isWaiting (s : Survey) (name : String) : Bool :=
  match s.layers with
  | [] => false
  | l :: _ => l.status? name = some .declared

/-- A variable that is read. -/
def readName (s : Survey) (id : NodeId) (name : Token) : Survey :=
  let s := if s.isWaiting name.lexeme then s.complain name .readInOwnInitializer else s
  s.refer id name.lexeme true

/-! ### Expressions -/

mutual

def expr (ctx : Context) : Expr → Survey → Survey
  | .literal _, s => s
  | .group e, s => expr ctx e s
  | .unary _ e, s => expr ctx e s
  | .binary l _ r, s => expr ctx r (expr ctx l s)
  | .logical l _ r, s => expr ctx r (expr ctx l s)
  | .conditional c t e, s => expr ctx e (expr ctx t (expr ctx c s))
  | .reference id name, s => s.readName id name
  | .assign id name value, s => (expr ctx value s).refer id name.lexeme false
  | .call callee _ arguments, s => exprs ctx arguments (expr ctx callee s)
  | .property object _, s => expr ctx object s
  | .setProperty object _ value, s => expr ctx object (expr ctx value s)
  | .this id keyword, s =>
    if ctx.inClass then s.refer id keyword.lexeme true
    else s.complain keyword .thisOutsideClass

def exprs (ctx : Context) : List Expr → Survey → Survey
  | [], s => s
  | e :: es, s => exprs ctx es (expr ctx e s)

end

/-! ### Statements -/

/-- Complaints about where a return statement stands. -/
def returnPlace (s : Survey) (ctx : Context) (keyword : Token) (value : Option Expr) : Survey :=
  let s := if ctx.body = .topLevel then s.complain keyword .returnFromTopLevel else s
  if ctx.body = .initializer && value.isSome then s.complain keyword .valueFromInitializer else s

/-- The body of an instance method: `init` is the initializer. -/
def methodBody (d : FunctionDecl) : Body :=
  if d.name.lexeme = "init" then .initializer else .method

mutual

def stmt (ctx : Context) : Stmt → Survey → Survey
  | .expression e, s => expr ctx e s
  | .print e, s => expr ctx e s
  | .declare name none, s => s.introduce name
  | .declare name (some e), s => (expr ctx e (s.declare name)).define name
  | .block body, s => (stmts ctx body (s.openLayer [])).closeLayer
  | .branch c t none, s => stmt ctx t (expr ctx c s)
  | .branch c t (some e), s => stmt ctx e (stmt ctx t (expr ctx c s))
  | .loop c body, s => stmt ctx body (expr ctx c s)
  | .breakLoop _, s => s
  | .function d, s => function ctx .function d (s.introduce d.name)
  | .returnFrom keyword value, s =>
    let s := s.returnPlace ctx keyword value
    match value with
    | some e => expr ctx e s
    | none => s
  | .classDecl name methods statics, s =>
    let ctx := { ctx with inClass := true }
    let s := (s.introduce name).openLayer (.ofThis name)
    let s := (methodList ctx methods s).closeLayer
    if statics.isEmpty then s
    else (staticList ctx statics (s.openLayer (.ofThis name))).closeLayer

def stmts (ctx : Context) : List Stmt → Survey → Survey
  | [], s => s
  | d :: ds, s => stmts ctx ds (stmt ctx d s)

/-- A function: one layer for its parameters and its body. -/
def function (ctx : Context) (body : Body) : FunctionDecl → Survey → Survey
  | .mk _ params code, s =>
    let s := (params.getD []).foldl (·.introduce ·) (s.openLayer [])
    (stmts { ctx with body } code s).closeLayer

def methodList (ctx : Context) : List FunctionDecl → Survey → Survey
  | [], s => s
  | d :: ds, s => methodList ctx ds (function ctx (methodBody d) d s)

def staticList (ctx : Context) : List FunctionDecl → Survey → Survey
  | [], s => s
  | d :: ds, s => staticList ctx ds (function ctx .method d s)

end

end Survey

/-! ### Whole trees -/

/-- What a survey found, in order. -/
structure Findings where
  lookups : List Lookup
  complaints : List Complaint

def Survey.findings (s : Survey) : Findings :=
  ⟨s.lookups.reverse, s.complaints.reverse⟩

def Context.outermost : Context := ⟨.topLevel, false⟩

/-- The findings on the statements of a program. -/
def ofProgram (body : List Stmt) : Findings :=
  (Survey.stmts .outermost body .empty).findings

/-- The findings on an expression by itself. -/
def ofExpression (e : Expr) : Findings :=
  (Survey.expr .outermost e .empty).findings

end Lox.Scope
