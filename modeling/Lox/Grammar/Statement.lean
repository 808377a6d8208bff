import Lox.Grammar.Expression

/-!
The grammar of declarations and statements.

A rule that fails gives up the innermost declaration around it. That declaration is dropped, its
complaint recorded, and reading resumes at the next place where a statement is likely to start.
The flag `inLoop` says whether a `break` is in order.
-/

namespace Lox.Grammar

/-! ### Recovery -/

/-- The words that start a statement or a declaration. -/
def startsStatement : Kind → Bool
  | .keyword .kwClass => true
  | .keyword .kwFun => true
  | .keyword .kwVar => true
  | .keyword .kwFor => true
  | .keyword .kwIf => true
  | .keyword .kwWhile => true
  | .keyword .kwPrint => true
  | .keyword .kwBreak => true
  | .keyword .kwReturn => true
  | _ => false

/-- The tokens from the next likely start of a statement on, `last` having been passed: after a
semicolon, or at a word that starts a statement. -/
def resumeAfter (last : Token) : List Token → List Token
  | [] => []
  | t :: rest =>
    if last.kind.isSymbol .semicolon || startsStatement t.kind then t :: rest
    else resumeAfter t rest

/-- The tokens at which reading resumes after a failure. The token of the failure is passed. -/
def resume : List Token → List Token
  | [] => []
  | t :: rest => resumeAfter t rest

/-- Where the rule fails, records its complaint, resumes and yields nothing. -/
def recovering {α : Type} (r : Rule α) : Rule (Option α) := fun c =>
  match r c with
  | .done a c => .done (some a) c
  | .failed e c =>
    .done none { c with rest := resume c.rest, complaints := e :: c.complaints }
  | .exhausted => .exhausted

/-! ### Simple statements -/

/-- An expression at the loosest level. -/
def expression (n : Nat) : Rule Expr := expr n .comma

/-- The value that a declared variable has from the beginning, if any, after an equals sign. -/
def initializer (n : Nat) : Rule (Option Expr) := do
  match ← acceptSymbol .equal with
  | some _ => some <$> expression n
  | none => pure none

/-- A variable declaration, its first word having been read. -/
def varDeclaration (n : Nat) : Rule Stmt := do
  let name ← expectName .ofVariable
  let initial ← initializer n
  let _ ← expectSymbol .semicolon .afterVariable
  pure (.declare name initial)

def expressionStatement (n : Nat) : Rule Stmt := do
  let e ← expression n
  let _ ← expectSymbol .semicolon .afterExpression
  pure (.expression e)

/-- A print statement, its first word having been read. -/
def printStatement (n : Nat) : Rule Stmt := do
  let e ← expression n
  let _ ← expectSymbol .semicolon .afterValue
  pure (.print e)

/-- A break statement, its word having been read. -/
def breakStatement (inLoop : Bool) (keyword : Token) : Rule Stmt := do
  require inLoop keyword .breakOutsideLoop
  let _ ← expectSymbol .semicolon (.afterKeyword .kwBreak)
  pure (.breakLoop keyword)

/-- A return statement, its first word having been read. -/
def returnStatement (n : Nat) (keyword : Token) : Rule Stmt := do
  let value ← unlessSees .semicolon none (some <$> expression n)
  let _ ← expectSymbol .semicolon .afterReturnValue
  pure (.returnFrom keyword value)

/-- At least one more parameter, after those already read, the last of which comes first. -/
def parameterList : Nat → List Token → Rule (List Token)
  | 0, _ => Rule.exhausted
  | n + 1, found => do
    require (found.length < maxArguments) (← peek) .tooManyParameters
    let name ← expectName .ofParameter
    match ← acceptSymbol .comma with
    | some _ => parameterList n (name :: found)
    | none => pure (name :: found).reverse

/-- The parameters of a function and the parentheses around them. A method whose body follows its
name at once has none. -/
def parameters (n : Nat) (sort : FunctionSort) : Rule (Option (List Token)) := do
  if sort = .method && (← seesSymbol .leftBrace) then
    pure none
  else
    let _ ← expectSymbol .leftParen (.afterName sort)
    let names ← unlessSees .rightParen [] (parameterList n [])
    let _ ← expectSymbol .rightParen .afterParameters
    pure (some names)

/-! ### For loops -/

/-- The head of a for loop: what runs first, the condition, and what runs after each round. -/
structure ForHead where
  first : Option Stmt
  condition : Option Expr
  increment : Option Expr

/-- What runs before the rounds of a for loop: a declaration, an expression or nothing, with its
semicolon. -/
def forFirst (n : Nat) : Rule (Option Stmt) := do
  match ← acceptSymbol .semicolon with
  | some _ => pure none
  | none =>
    match ← acceptKeyword .kwVar with
    | some _ => some <$> varDeclaration n
    | none => some <$> expressionStatement n

/-- The head of a for loop, its word having been read. -/
def forHead (n : Nat) : Rule ForHead := do
  let _ ← expectSymbol .leftParen (.afterKeyword .kwFor)
  let first ← forFirst n
  let condition ← unlessSees .semicolon none (some <$> expression n)
  let _ ← expectSymbol .semicolon .afterLoopCondition
  let increment ← unlessSees .rightParen none (some <$> expression n)
  let _ ← expectSymbol .rightParen .afterForClauses
  pure ⟨first, condition, increment⟩

/-- A for loop is a loop whose body ends with the increment, in a block with what runs first. -/
def ForHead.loop (head : ForHead) (body : Stmt) : Stmt :=
  let body :=
    match head.increment with
    | some e => .block [body, .expression e]
    | none => body
  let looped := .loop (head.condition.getD (.literal (.boolean true))) body
  match head.first with
  | some s => .block [s, looped]
  | none => looped

/-! ### Declarations -/

mutual

/-- A declaration or statement, or nothing if it was given up. -/
def declaration : Nat → Bool → Rule (Option Stmt)
  | 0, _ => Rule.exhausted
  | n + 1, inLoop => recovering (do
    let t ← peek
    match t.kind with
    | .keyword .kwClass => do advance; classDeclaration n
    | .keyword .kwFun => do advance; .function <$> function n .function
    | .keyword .kwVar => do advance; varDeclaration n
    | _ => statement n inLoop)

def statement : Nat → Bool → Rule Stmt
  | 0, _ => Rule.exhausted
  | n + 1, inLoop => do
    let t ← peek
    match t.kind with
    | .keyword .kwFor =>
      advance
      let head ← forHead n
      head.loop <$> statement n true
    | .keyword .kwIf =>
      advance
      let _ ← expectSymbol .leftParen (.afterKeyword .kwIf)
      let condition ← expression n
      let _ ← expectSymbol .rightParen .afterIfCondition
      let whenTrue ← statement n inLoop
      match ← acceptKeyword .kwElse with
      | some _ => (.branch condition whenTrue ∘ some) <$> statement n inLoop
      | none => pure (.branch condition whenTrue none)
    | .keyword .kwWhile =>
      advance
      let _ ← expectSymbol .leftParen (.afterKeyword .kwWhile)
      let condition ← expression n
      let _ ← expectSymbol .rightParen .afterCondition
      .loop condition <$> statement n true
    | .keyword .kwBreak => do advance; breakStatement inLoop t
    | .keyword .kwReturn => do advance; returnStatement n t
    | .symbol .leftBrace => do advance; .block <$> block n inLoop []
    | .keyword .kwPrint => do advance; printStatement n
    | _ => expressionStatement n

/-- The rest of a block and its closing brace, after the statements already read, the last of
which comes first. -/
def block : Nat → Bool → List Stmt → Rule (List Stmt)
  | 0, _, _ => Rule.exhausted
  | n + 1, inLoop, found => do
    if (← atEnd) || (← seesSymbol .rightBrace) then
      let _ ← expectSymbol .rightBrace .afterBlock
      pure found.reverse
    else
      let s ← declaration n inLoop
      block n inLoop (s.toList ++ found)

/-- A function or method from its name on. Its body is outside of every loop. -/
def function : Nat → FunctionSort → Rule FunctionDecl
  | 0, _ => Rule.exhausted
  | n + 1, sort => do
    let name ← expectName (.ofFunction sort)
    let params ← parameters n sort
    let _ ← expectSymbol .leftBrace (.functionBody sort)
    let body ← block n false []
    pure ⟨name, params, body⟩

/-- A class, its word having been read. -/
def classDeclaration : Nat → Rule Stmt
  | 0 => Rule.exhausted
  | n + 1 => do
    let name ← expectName .ofClass
    let _ ← expectSymbol .leftBrace .classBody
    let (methods, statics) ← members n [] []
    let _ ← expectSymbol .rightBrace .afterClassBody
    pure (.classDecl name methods statics)

/-- The methods up to the closing brace of a class, after those already read, the last of which
comes first. The word `class` marks a static method. -/
def members : Nat → List FunctionDecl → List FunctionDecl →
    Rule (List FunctionDecl × List FunctionDecl)
  | 0, _, _ => Rule.exhausted
  | n + 1, methods, statics => do
    if (← atEnd) || (← seesSymbol .rightBrace) then
      pure (methods.reverse, statics.reverse)
    else
      match ← acceptKeyword .kwClass with
      | some _ =>
        let m ← function n .method
        members n methods (m :: statics)
      | none =>
        let m ← function n .method
        members n (m :: methods) statics

end

/-- Declarations to the end of input, after those already read, the last of which comes first. -/
def declarations : Nat → List Stmt → Rule (List Stmt)
  | 0, _ => Rule.exhausted
  | n + 1, found => do
    if ← atEnd then pure found.reverse
    else
      let s ← declaration n false
      declarations n (s.toList ++ found)

end Lox.Grammar
