/-!
The faults in the use of names, and their wording.
-/

namespace Lox.Scope

inductive Fault
  | readInOwnInitializer
  | alreadyDeclared
  | neverRead
  | returnFromTopLevel
  | valueFromInitializer
  | thisOutsideClass
deriving DecidableEq

def Fault.message : Fault → String
  | readInOwnInitializer => "Can't read local variable in its own initializer."
  | alreadyDeclared => "Already a variable with this name in this scope."
  | neverRead => "Local variable is not read."
  | returnFromTopLevel => "Can't return from top-level code."
  | valueFromInitializer => "Can't return a value from an initializer."
  | thisOutsideClass => "Can't use 'this' outside of a class."

end Lox.Scope
