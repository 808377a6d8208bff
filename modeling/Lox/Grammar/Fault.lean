import Lox.Token

/-!
The faults of grammar, and their wording.
-/

namespace Lox.Grammar

/-- The two forms of function declaration. -/
inductive FunctionSort
  | function
  | method
deriving DecidableEq

def FunctionSort.text : FunctionSort → String
  | function => "function"
  | method => "method"

/-- What a name is expected for. -/
inductive Named
  | ofClass
  | ofFunction (s : FunctionSort)
  | ofVariable
  | ofParameter
deriving DecidableEq

def Named.text : Named → String
  | ofClass => "class"
  | ofFunction s => s.text
  | ofVariable => "variable"
  | ofParameter => "parameter"

/-- The place in a construct where a symbol is expected. -/
inductive Site
  | classBody
  | functionBody (s : FunctionSort)
  | afterClassBody
  | afterBlock
  | afterName (s : FunctionSort)
  | afterKeyword (k : Keyword)
  | afterParameters
  | afterForClauses
  | afterIfCondition
  | afterCondition
  | afterArguments
  | afterExpression
  | afterVariable
  | afterLoopCondition
  | afterValue
  | afterReturnValue
  | afterThenBranch
deriving DecidableEq

def Site.text : Site → String
  | classBody => "before class body"
  | functionBody s => "before " ++ s.text ++ " body"
  | afterClassBody => "after class body"
  | afterBlock => "after block"
  | afterName s => "after " ++ s.text ++ " name"
  | afterKeyword k => "after '" ++ k.text ++ "'"
  | afterParameters => "after parameters"
  | afterForClauses => "after for clauses"
  | afterIfCondition => "after if condition"
  | afterCondition => "after condition"
  | afterArguments => "after arguments"
  | afterExpression => "after expression"
  | afterVariable => "after variable declaration"
  | afterLoopCondition => "after loop condition"
  | afterValue => "after value"
  | afterReturnValue => "after return value"
  | afterThenBranch => "after then branch of conditional expression"

/-- What is wrong with a list of tokens. -/
inductive Fault
  | expectedName (n : Named)
  | expectedProperty
  | expectedSymbol (s : Symbol) (site : Site)
  | expectedExpression
  | expectedEnd
  | tooManyParameters
  | tooManyArguments
  | invalidTarget
  | missingLeftOperand
  | breakOutsideLoop
deriving DecidableEq

def Fault.message : Fault → String
  | expectedName n => "Expect " ++ n.text ++ " name."
  | expectedProperty => "Expect property name after '.'."
  | expectedSymbol s site => "Expect '" ++ s.text ++ "' " ++ site.text ++ "."
  | expectedExpression => "Expect expression."
  | expectedEnd => "Expect end of expression."
  | tooManyParameters => "Can't have more than 255 parameters."
  | tooManyArguments => "Can't have more than 255 arguments."
  | invalidTarget => "Invalid assignment target."
  | missingLeftOperand => "Missing left-hand operand."
  | breakOutsideLoop => "Must be inside a loop to use 'break'."

end Lox.Grammar
