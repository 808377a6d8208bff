import Lox.Tree.Expr
import Lox.Number.Format

/-!
Expressions written with every operator in front of its operands, in parentheses.
-/

namespace Lox.Expr

/-- Numbers in written expressions: whole numbers have one decimal, all others their shortest
digits, none an exponent. -/
def numberFormat : Number.Format where
  exactBelow := Nat.pow 2 1024
  exactTail := ".0"
  shortTail := ""
  zeroSign := true
  positional := none
  tie := .up
  infinity := "inf"
  negativeInfinity := "-inf"
  nan := "NaN"

def literalText : Literal → String
  | .number x => numberFormat.write x
  | .string s => s
  | .boolean true => "true"
  | .boolean false => "false"
  | .nil => "nil"

mutual

def written : Expr → String
  | literal l => literalText l
  | group e => "(group " ++ e.written ++ ")"
  | unary op e => "(" ++ op.lexeme ++ " " ++ e.written ++ ")"
  | binary l op r => "(" ++ op.lexeme ++ " " ++ l.written ++ " " ++ r.written ++ ")"
  | logical l op r => "(" ++ op.lexeme ++ " " ++ l.written ++ " " ++ r.written ++ ")"
  | conditional c t e => "(?: " ++ c.written ++ " " ++ t.written ++ " " ++ e.written ++ ")"
  | reference _ name => name.lexeme
  | assign _ name value => "(= " ++ name.lexeme ++ " " ++ value.written ++ ")"
  | call callee _ arguments => "(call " ++ callee.written ++ writtenEach arguments ++ ")"
  | property object name => "(. " ++ object.written ++ " " ++ name.lexeme ++ ")"
  | setProperty object name value =>
    "(.= " ++ object.written ++ " " ++ name.lexeme ++ " " ++ value.written ++ ")"
  | this .. => "this"

/-- The expressions in order, each after a blank. -/
def writtenEach : List Expr → String
  | [] => ""
  | e :: es => " " ++ e.written ++ writtenEach es

end

end Lox.Expr
