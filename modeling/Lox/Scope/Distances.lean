import Std.Data.TreeMap
import Lox.Grammar.Program
import Lox.Scope.Survey

/-!
What is known about the references of all inputs so far.
-/

namespace Lox.Scope

/-- How many scopes outward the variable of a node stands. Nodes without an entry refer to global
variables. -/
abbrev Distances := Std.TreeMap NodeId Nat

/-- Adds one reference. -/
def Distances.add (known : Distances) (l : Lookup) : Distances :=
  match l.depth with
  | some d => known.insert l.id d
  | none => known

/-- Adds the references of one survey. -/
def Distances.addAll (known : Distances) (ls : List Lookup) : Distances :=
  ls.foldl (·.add ·) known

/-- The findings on an input. -/
def ofInput : Grammar.Input → Findings
  | .expression e => ofExpression e
  | .statements body => ofProgram body

end Lox.Scope
