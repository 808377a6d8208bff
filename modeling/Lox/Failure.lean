/-!
Why a run stops before its end.
-/

namespace Lox

/-- What goes wrong while a program runs. -/
inductive RuntimeFault
  | operandNotNumber
  | operandsNotNumbers (op : String)
  | operandsNotAddable
  | divisionByZero
  | invalidOperator (op : String)
  | undefinedVariable (name : String)
  | undefinedProperty (name : String)
  | noProperties
  | noFields
  | notCallable
  | wrongArity (expected got : Nat)
  | stackOverflow
  /-- A native function gave a message of its own. -/
  | native (message : String)
  | strayBreak
  | strayReturn
deriving DecidableEq

def RuntimeFault.message : RuntimeFault → String
  | operandNotNumber => "Operand must be a number."
  | operandsNotNumbers op => "Operands of '" ++ op ++ "' must be numbers."
  | operandsNotAddable => "Operands must be two numbers or two strings."
  | divisionByZero => "Division by zero."
  | invalidOperator op => "Invalid operator '" ++ op ++ "'."
  | undefinedVariable name => "Undefined variable '" ++ name ++ "'."
  | undefinedProperty name => "Undefined property '" ++ name ++ "'."
  | noProperties => "Only instances have properties."
  | noFields => "Only instances have fields."
  | notCallable => "Can only call functions and classes."
  | wrongArity expected got =>
    "Expected " ++ toString expected ++ " arguments but got " ++ toString got ++ "."
  | stackOverflow => "Stack overflow."
  | native message => message
  | strayBreak => "Unexpected 'break'."
  | strayReturn => "Unexpected 'return'."

/-- What goes wrong where output is delivered. -/
inductive SinkFault
  | full
  | notFlushed
deriving DecidableEq

def SinkFault.message : SinkFault → String
  | full => "sink full"
  | notFlushed => "flush failed"

/-- A fault of the program with its line, or one of the sink, which has none. -/
inductive Failure
  | runtime (line : Nat) (f : RuntimeFault)
  | sink (f : SinkFault)
deriving DecidableEq

namespace Failure

def line? : Failure → Option Nat
  | runtime line _ => some line
  | sink _ => none

/-- The bare message. -/
def message : Failure → String
  | runtime _ f => f.message
  | sink f => f.message

/-- The full text. -/
def text : Failure → String
  | runtime line f => "[line " ++ toString line ++ "] Runtime error: " ++ f.message
  | sink f => f.message

end Failure

end Lox
