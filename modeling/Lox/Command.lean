import Lox.Files
import Lox.Invocation
import Lox.Prompt
import Lox.Token.Listing
import Lox.Tree.Written

/-!
Commands: what is done with a file, and what is then written where.

A command either is done with a report, or has a session to go on with: a program that is loaded,
or a prompt that waits for lines.
-/

namespace Lox

/-- What is left to do for a command. -/
inductive Plan
  | finished (r : Report)
  | program (s : Session) (input : Grammar.Input)
  | prompt (s : Session)

/-- The text of a file, or a report on why there is none. -/
def sourceOf (name : String) (contents : Except FileFault ByteArray) :
    Except Report String :=
  let shown := Text.quote Text.shown name
  match contents with
  | .error f => .error (.causedBy (f.attempt ++ " " ++ shown) f.message)
  | .ok bytes =>
    match Text.Utf8.decode bytes with
    | .ok text => .ok text
    | .error f => .error (.causedBy (shown ++ " is not valid UTF-8") f.message)

/-- Lists the tokens of a source text, and its faults on the other output. -/
def listTokens (json : Bool) (source : String) : Report :=
  let write (t : Token) : String := (if json then t.json else t.listing) ++ "\n"
  let faults := Grammar.lexicalComplaints source
  { out := String.join ((Source.tokens source).map write)
    err := String.join (faults.map fun c => c.text ++ "\n")
    code := if faults.isEmpty then 0 else refusedCode }

/-- Writes the tree of an expression. -/
def writeTree (source : String) : Report :=
  match (Grammar.readBy Grammar.singleExpression source 0).result with
  | .ok e => .success (e.written ++ "\n")
  | .error cs => (Ending.refused cs).report

/-- Accepts a source text, and goes on with the session unless it is refused. -/
def planSource (s : Session) (mode : Grammar.Mode) (source : String) : Plan :=
  match s.accept mode source with
  | (_, .error cs) => .finished (Ending.refused cs).report
  | (s, .ok input) => .program s input

/-- What an action does with a source text. -/
def Action.plan (a : Action) (s : Session) (source : String) : Plan :=
  match a with
  | tokenize json => .finished (listTokens json source)
  | parse => .finished (writeTree source)
  | evaluate => planSource s .expression source
  | run => planSource s .program source

/-- What a command does, `contents` being those of its file if it names one. -/
def Command.plan (c : Command) (s : Session) (contents : Except FileFault ByteArray) : Plan :=
  match c with
  | version => .finished (.success "treelox 0.1.0\n")
  | apply .run none => .prompt s
  | apply _ none => .finished (.success "No input filepath was provided. Exiting...\n")
  | apply a (some name) =>
    match sourceOf name contents with
    | .error r => .finished r
    | .ok source => a.plan s source

/-- Carries a plan out, each run in at most `n` steps. -/
def Plan.report (n : Nat) (input : String) : Plan → Report
  | finished r => r
  | program s tree =>
    let (s, e) := Session.conclude n (s, .ok tree)
    let r := e.report
    { r with out := s.outputFrom 0 ++ r.out }
  | prompt s => Prompt.transcript n s (.success "") (Prompt.linesOf input)

end Lox
