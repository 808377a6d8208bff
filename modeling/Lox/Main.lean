import Std.Time.DateTime.Timestamp
import Lox.Command

/-!
The program on the command line: files are read, runs go forward in bursts, and what was printed
is written out between them.
-/

namespace Lox.CommandLine

/-- How many steps are taken before what was printed is written out. -/
def burst : Nat := 100000

/-- The time in seconds. -/
def now : IO Float := do
  let t ← Std.Time.Timestamp.now
  return Float.ofInt t.toMillisecondsSinceUnixEpoch.val / 1000.0

/-- The number of a cause. Some calls give it below zero. -/
def causeNumber (code : UInt32) : UInt32 := min code (0 - code)

/-- The bytes of a file, or why there are none. -/
def contents (name : String) : IO (Except FileFault ByteArray) := do
  try
    return .ok (← IO.FS.readBinFile name)
  catch
    | .noFileOrDirectory .. => return .error .missing
    | .permissionDenied .. => return .error .denied
    | e@(.inappropriateType _ code _) | e@(.invalidArgument _ code _) =>
      match causeNumber code with
      | 20 => return .error .notFolder
      | 21 => return .error .isFolder
      | 36 => return .error .nameTooLong
      | _ => return .error (.other (toString e))
    | e => return .error (.other (toString e))

def writeReport (r : Report) : IO Unit := do
  let out ← IO.getStdout
  out.putStr r.out
  out.flush
  (← IO.getStderr).putStr r.err

/-- Runs a loaded input to its end. -/
partial def drive (s : Session) (input : Grammar.Input) : IO (Session × Ending) := do
  let before := s.output.size
  let s := { s with host := Service.host [Service.clock (← now)] }.resume burst
  let out ← IO.getStdout
  out.write (s.output.extract before s.output.size)
  match s.ending input with
  | .unfinished => drive s input
  | e => return (s, e)

/-- Answers lines until there are no more. -/
partial def prompt (s : Session) : IO Unit := do
  let out ← IO.getStdout
  out.putStr Prompt.mark
  out.flush
  let line ← (← IO.getStdin).getLine
  if line.isEmpty then out.putStr "\n"
  else
    match s.accept .line (Prompt.chomp line) with
    | (s, .error cs) =>
      writeReport (Ending.refused cs).report
      prompt s
    | (s, .ok input) =>
      let (s, e) ← drive s input
      writeReport e.report
      prompt s

/-- Carries a plan out, and gives the exit code. -/
def carryOut : Plan → IO UInt32
  | .finished r => do
    writeReport r
    return r.code.toUInt32
  | .program s input => do
    let (_, e) ← drive s input
    writeReport e.report
    return e.report.code.toUInt32
  | .prompt s => do
    prompt s
    return 0

end Lox.CommandLine

open Lox in
def main (args : List String) : IO UInt32 := do
  let some inv := Invocation.ofArguments? args
    | IO.eprintln "Usage: [--log] tokenize|parse|evaluate|run [--json] [FILE]"
      return 2
  if inv.log then IO.FS.writeFile "app.log" ""
  let contents ←
    match inv.command.file? with
    | some name => CommandLine.contents name
    | none => pure (.error .missing)
  let s := Session.start [Service.clock (← CommandLine.now)] .unlimited
  CommandLine.carryOut (inv.command.plan s contents)
