/-!
The arguments of a command line, and what they ask for.
-/

namespace Lox

/-- What can be done with a source text. -/
inductive Action
  | tokenize (json : Bool)
  | parse
  | evaluate
  | run
deriving DecidableEq

inductive Command
  | version
  | apply (a : Action) (file : Option String)
deriving DecidableEq

/-- The file that a command names. -/
def Command.file? : Command → Option String
  | version => none
  | apply _ file => file

/-- A command, and whether a log is kept. -/
structure Invocation where
  command : Command
  log : Bool
deriving DecidableEq

/-- What stands after the name of a command. -/
structure Operands where
  json : Bool
  log : Bool
  file : Option String

namespace Operands

def withFile (o : Operands) (name : String) : Option Operands :=
  if o.file.isSome then none else some { o with file := some name }

/-- Reads operands: one file at most, with switches around it, each once. After two dashes only a
file is left. -/
def read (o : Operands) : List String → Option Operands
  | [] => some o
  | "--json" :: rest => if o.json then none else read { o with json := true } rest
  | "--log" :: rest => if o.log then none else read { o with log := true } rest
  | ["--"] => some o
  | ["--", name] => if name.isEmpty then none else o.withFile name
  | name :: rest =>
    if name.isEmpty || (name.startsWith "-" && name ≠ "-") then none
    else
      match o.withFile name with
      | some o => read o rest
      | none => none

/-- The action of a name. Only the listing of tokens knows JSON. -/
def action? (o : Operands) (name : String) : Option Action :=
  match name, o.json with
  | "tokenize", json => some (.tokenize json)
  | "parse", false => some .parse
  | "evaluate", false => some .evaluate
  | "run", false => some .run
  | _, _ => none

end Operands

namespace Invocation

/-- A command by its name, with its operands. A log is kept if it is asked for before the name,
after it, or in both places. -/
def ofName? (log : Bool) (name : String) (rest : List String) : Option Invocation :=
  match Operands.read ⟨false, false, none⟩ rest with
  | some o => (o.action? name).map fun a => ⟨.apply a o.file, log || o.log⟩
  | none => none

/-- What the arguments ask for, if they make sense. -/
def ofArguments? : List String → Option Invocation
  | [] => none
  | "--version" :: _ => some ⟨.version, false⟩
  | "-V" :: _ => some ⟨.version, false⟩
  | "--log" :: "--version" :: _ => some ⟨.version, false⟩
  | "--log" :: "-V" :: _ => some ⟨.version, false⟩
  | "--log" :: name :: rest => ofName? true name rest
  | name :: rest => ofName? false name rest

end Invocation

end Lox
