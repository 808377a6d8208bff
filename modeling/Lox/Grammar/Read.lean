import Lox.Grammar.Program

/-!
Source texts read as trees.
-/

namespace Lox.Grammar

/-- What an input is read as. -/
inductive Mode
  | program
  | expression
  | line
deriving DecidableEq

def Parsed.map {α β : Type} (f : α → β) (p : Parsed α) : Parsed β :=
  ⟨p.result.map f, p.nextId⟩

/-- Reads tokens in a mode. -/
def inputOf (mode : Mode) (tokens : List Token) (firstId : NodeId) : Parsed Input :=
  match mode with
  | .program => (program tokens firstId).map .statements
  | .expression => (singleExpression tokens firstId).map .expression
  | .line => line tokens firstId

/-- The complaints about a text, in order. -/
def lexicalComplaints (source : String) : List Complaint :=
  (Source.faults source).map fun (line, f) => .lexical line f

/-- Reads a source text by a rule for whole lists of tokens. Complaints about the text come before
those about the grammar, and are enough to refuse it. -/
def readBy {α : Type} (parse : List Token → NodeId → Parsed α) (source : String)
    (firstId : NodeId) : Parsed α :=
  let p := parse (Source.tokens source) firstId
  let lexical := lexicalComplaints source
  match p.result with
  | .error cs => { p with result := .error (lexical ++ cs) }
  | .ok _ => if lexical.isEmpty then p else { p with result := .error lexical }

/-- Reads a source text in a mode. -/
def read (mode : Mode) : String → NodeId → Parsed Input := readBy (inputOf mode)

end Lox.Grammar
