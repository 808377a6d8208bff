import Lox.Source.Item
import Lox.Grammar.Fault
import Lox.Scope.Fault

/-!
Complaints about a source text, found before anything of it is executed.
-/

namespace Lox

/-- Where in its line a complaint belongs. -/
inductive Place
  | token (lexeme : String)
  | endOfInput
deriving DecidableEq

def Place.of (t : Token) : Place :=
  if t.kind.isEof then endOfInput else token t.lexeme

def Place.text : Place → String
  | token lexeme => " at '" ++ lexeme ++ "'"
  | endOfInput => " at end"

/-- A fault of the text, of its grammar or of its names, with its line. -/
inductive Complaint
  | lexical (line : Nat) (f : Source.Fault)
  | grammar (line : Nat) (place : Place) (f : Grammar.Fault)
  | scope (line : Nat) (place : Place) (f : Scope.Fault)
deriving DecidableEq

namespace Complaint

def line : Complaint → Nat
  | lexical l _ => l
  | grammar l _ _ => l
  | scope l _ _ => l

/-- The bare message. -/
def message : Complaint → String
  | lexical _ f => f.message
  | grammar _ _ f => f.message
  | scope _ _ f => f.message

/-- Where in its line the complaint belongs; faults of the text have no place. -/
def placeText : Complaint → String
  | lexical .. => ""
  | grammar _ p _ => p.text
  | scope _ p _ => p.text

/-- The full text. -/
def text (c : Complaint) : String :=
  "[line " ++ toString c.line ++ "] Error" ++ c.placeText ++ ": " ++ c.message

end Complaint

end Lox
