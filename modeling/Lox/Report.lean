import Lox.Session
import Lox.Text.Utf8

/-!
What is written to the two outputs, and the exit code.
-/

namespace Lox

structure Report where
  out : String
  err : String
  code : Nat

namespace Report

def success (out : String) : Report := ⟨out, "", 0⟩

def failure (err : String) (code : Nat) : Report := ⟨"", err, code⟩

/-- An error with its cause. -/
def causedBy (what cause : String) : Report :=
  failure ("Error: " ++ what ++ "\n\nCaused by:\n    " ++ cause ++ "\n") 1

end Report

/-- The exit code when an input is refused. -/
def refusedCode : Nat := 65

/-- The exit code when an input fails while it runs. -/
def failedCode : Nat := 70

/-- Complaints, one on a line. -/
def complaintsText (cs : List Complaint) : String :=
  "\n".intercalate (cs.map Complaint.text)

/-- What is written after an input: its value if it has one, or what went wrong. -/
def Ending.report : Ending → Report
  | done (some v) => .success (v.text ++ "\n")
  | done none => .success ""
  | refused cs => .failure (complaintsText cs ++ "\n") refusedCode
  | failed f => .failure (f.text ++ "\n") failedCode
  | unfinished => .success ""

/-- What was printed after the first `n` bytes. -/
def Session.outputFrom (s : Session) (n : Nat) : String :=
  Text.Utf8.decodeFront (s.output.extract n s.output.size)

end Lox
