import Lox.Grammar.Rule

/-!
The grammar of expressions, as a cascade of levels from loosest to tightest.

Most levels are chains of one group of operators over the next tighter level, associating to the
left. A binary operator without a left operand is reported, and reading goes on at its own level,
so that what follows gives no further complaint.
-/

namespace Lox.Grammar

inductive Level
  | comma | assignment | conditional | or | and | equality | comparison
  | term | factor | unary | call | primary
deriving DecidableEq

namespace Level

/-- The next tighter level. -/
def tighter : Level → Level
  | comma => assignment
  | assignment => conditional
  | conditional => or
  | or => and
  | and => equality
  | equality => comparison
  | comparison => term
  | term => factor
  | factor => unary
  | unary => call
  | call => primary
  | primary => primary

/-- The operators that a level chains. -/
def chains : Level → Kind → Bool
  | comma, .symbol .comma => true
  | or, .keyword .kwOr => true
  | and, .keyword .kwAnd => true
  | equality, .symbol .bangEqual => true
  | equality, .symbol .equalEqual => true
  | comparison, .symbol .greater => true
  | comparison, .symbol .greaterEqual => true
  | comparison, .symbol .less => true
  | comparison, .symbol .lessEqual => true
  | term, .symbol .minus => true
  | term, .symbol .plus => true
  | factor, .symbol .slash => true
  | factor, .symbol .star => true
  | _, _ => false

/-- The node for one link of a chain. -/
def link (level : Level) (left : Expr) (op : Token) (right : Expr) : Expr :=
  match level with
  | or => .logical left op right
  | and => .logical left op right
  | _ => .binary left op right

/-- The level of an operator that stands where an operand should. Minus is not among them, as it
may begin an operand. -/
def ofStray? : Kind → Option Level
  | .symbol .comma => some comma
  | .symbol .bangEqual => some equality
  | .symbol .equalEqual => some equality
  | .symbol .greater => some comparison
  | .symbol .greaterEqual => some comparison
  | .symbol .less => some comparison
  | .symbol .lessEqual => some comparison
  | .symbol .plus => some term
  | .symbol .slash => some factor
  | .symbol .star => some factor
  | _ => none

end Level

/-- The operators that stand in front of their operand. -/
def isUnary : Kind → Bool
  | .symbol .bang => true
  | .symbol .minus => true
  | _ => false

/-- The greatest number of parameters or arguments that passes without complaint. -/
def maxArguments : Nat := 255

/-- Turns what stands left of an equals sign into an assignment, if it can be assigned to. -/
def assignTo (target : Expr) (equals : Token) (value : Expr) : Rule Expr :=
  match target with
  | .reference _ name => do
    let id ← freshId
    pure (.assign id name value)
  | .property object name => pure (.setProperty object name value)
  | other => do
    report equals .invalidTarget
    pure other

mutual

/-- An expression of a level. -/
def expr : Nat → Level → Rule Expr
  | 0, _ => Rule.exhausted
  | n + 1, .assignment => do
    let target ← expr n .conditional
    match ← acceptSymbol .equal with
    | none => pure target
    | some equals =>
      let value ← expr n .assignment
      assignTo target equals value
  | n + 1, .conditional => do
    let condition ← expr n .or
    match ← acceptSymbol .question with
    | none => pure condition
    | some _ =>
      let whenTrue ← expr n .comma
      let _ ← expectSymbol .colon .afterThenBranch
      let whenFalse ← expr n .conditional
      pure (.conditional condition whenTrue whenFalse)
  | n + 1, .unary => do
    match ← accept isUnary with
    | some op =>
      let operand ← expr n .unary
      pure (.unary op operand)
    | none => expr n .call
  | n + 1, .call => do
    let callee ← expr n .primary
    suffixes n callee
  | n + 1, .primary => primary n
  | n + 1, level => do
    let left ← expr n level.tighter
    chain n level left

/-- The rest of a chain of a level, after its first operands. -/
def chain : Nat → Level → Expr → Rule Expr
  | 0, _, _ => Rule.exhausted
  | n + 1, level, left => do
    match ← accept level.chains with
    | none => pure left
    | some op =>
      let right ← expr n level.tighter
      chain n level (level.link left op right)

/-- Calls and properties after an expression. -/
def suffixes : Nat → Expr → Rule Expr
  | 0, _ => Rule.exhausted
  | n + 1, e => do
    match (← peek).kind with
    | .symbol .leftParen =>
      advance
      let arguments ← unlessSees .rightParen [] (argumentList n [])
      let paren ← expectSymbol .rightParen .afterArguments
      suffixes n (.call e paren arguments)
    | .symbol .dot =>
      advance
      let name ← expect Kind.isIdentifier .expectedProperty
      suffixes n (.property e name)
    | _ => pure e

/-- At least one more argument, after those already read, the last of which comes first. -/
def argumentList : Nat → List Expr → Rule (List Expr)
  | 0, _ => Rule.exhausted
  | n + 1, found => do
    require (found.length < maxArguments) (← peek) .tooManyArguments
    let argument ← expr n .assignment
    match ← acceptSymbol .comma with
    | some _ => argumentList n (argument :: found)
    | none => pure (argument :: found).reverse

/-- An operand without operators of its own. -/
def primary : Nat → Rule Expr
  | 0 => Rule.exhausted
  | n + 1 => do
    let t ← peek
    match t.kind with
    | .keyword .kwFalse => do advance; pure (.literal (.boolean false))
    | .keyword .kwTrue => do advance; pure (.literal (.boolean true))
    | .keyword .kwNil => do advance; pure (.literal .nil)
    | .keyword .kwThis => do advance; pure (.this (← freshId) t)
    | .number x => do advance; pure (.literal (.number x))
    | .string s => do advance; pure (.literal (.string s))
    | .identifier => do advance; pure (.reference (← freshId) t)
    | .symbol .leftParen =>
      advance
      let inner ← expr n .comma
      let _ ← expectSymbol .rightParen .afterExpression
      pure (.group inner)
    | k =>
      match Level.ofStray? k with
      | some level =>
        advance
        report t .missingLeftOperand
        expr n level
      | none => fail .expectedExpression

end

end Lox.Grammar
