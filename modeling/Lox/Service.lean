import Lox.Machine.State

/-!
Native functions offered to programs, each with what it answers.
-/

namespace Lox

structure Service where
  native : Native
  answer : List Value → Except String Value

namespace Service

/-- The time in seconds. -/
def clock (now : Float) : Service :=
  ⟨⟨"clock", 0⟩, fun _ => .ok (.number now)⟩

/-- The answers of a list of services. Of several with one name the first counts. -/
def host (services : List Service) : Machine.Host := fun name args =>
  match services.find? (·.native.name = name) with
  | some s => s.answer args
  | none => .error ("No function '" ++ name ++ "'.")

/-- The variables that make services known. -/
def table (services : List Service) : Table Value :=
  Table.ofList (services.map fun s => (s.native.name, .native s.native))

end Service

end Lox
