import Lox.Report

/-!
The prompt: lines are answered one after another within one session.
-/

namespace Lox.Prompt

/-- What stands before each line of input. -/
def mark : String := "> "

/-- A line without its line break, and without the carriage return in front of one. -/
def chomp (line : String) : String :=
  match line.toList.reverse with
  | '\n' :: '\r' :: rest => String.ofList rest.reverse
  | '\n' :: rest => String.ofList rest.reverse
  | _ => line

/-- The lines of a text. The last one need not be closed by a line break. -/
def linesOf (text : String) : List String :=
  let pieces := text.splitOn "\n"
  let closed := pieces.dropLast.map fun p => chomp (p ++ "\n")
  closed ++ pieces.getLast?.toList.filter (!·.isEmpty)

/-- Answers one line, in at most `n` steps. -/
def answer (s : Session) (n : Nat) (line : String) : Session × Report :=
  let before := s.output.size
  let (s, e) := s.runLine n line
  let r := e.report
  (s, { r with out := s.outputFrom before ++ r.out })

/-- Answers lines one after another, each in at most `n` steps, and closes the prompt. `soFar` is
what was written before. -/
def transcript (n : Nat) (s : Session) (soFar : Report) : List String → Report
  | [] => { soFar with out := soFar.out ++ mark ++ "\n" }
  | line :: rest =>
    let (s, r) := answer s n line
    let soFar := { soFar with out := soFar.out ++ mark ++ r.out, err := soFar.err ++ r.err }
    transcript n s soFar rest

end Lox.Prompt
