import Lox.Grammar.Read
import Lox.Machine.Run
import Lox.Service

/-!
Sessions: inputs one after another, each read, surveyed and then run on what the earlier ones
left.

An input with complaints is refused as a whole: nothing of it runs. The machine is loaded with an
input that is accepted, runs for as many steps as are allowed, and can be resumed.
-/

namespace Lox

structure Session where
  /-- The number of the next node that refers to a variable. -/
  nextId : NodeId
  distances : Scope.Distances
  host : Machine.Host
  machine : Machine

/-- How an input ended. Statements have no value. -/
inductive Ending
  | done (value : Option Value)
  | refused (complaints : List Complaint)
  | failed (f : Failure)
  /-- The allowed steps were not enough. -/
  | unfinished

namespace Session

/-- The beginning of a session: the native functions are its only variables. -/
def start (services : List Service) (sink : Sink) : Session :=
  { nextId := 0
    distances := {}
    host := Service.host services
    machine :=
      { control := .value .nil
        pending := []
        env := Env.globals
        depth := 0
        world :=
          { frames := Frames.empty.push (Service.table services)
            fields := #[]
            functions := 0
            sink } } }

/-! ### Acceptance -/

/-- Puts an input into the machine. -/
def load (s : Session) (input : Grammar.Input) : Session :=
  let control : Machine.Control :=
    match input with
    | .expression e => .eval e
    | .statements body => .execAll body
  { s with machine := { s.machine with control, pending := [] } }

/-- Records where the references of an input lead, and loads it unless there are complaints. What
was recorded stays in any case. -/
def acceptTree (s : Session) (input : Grammar.Input) :
    Session × Except (List Complaint) Grammar.Input :=
  let found := Scope.ofInput input
  let s := { s with distances := s.distances.addAll found.lookups }
  if found.complaints.isEmpty then (s.load input, .ok input) else (s, .error found.complaints)

/-- Reads a source text, and accepts what it says. -/
def accept (s : Session) (mode : Grammar.Mode) (source : String) :
    Session × Except (List Complaint) Grammar.Input :=
  let p := Grammar.read mode source s.nextId
  let s := { s with nextId := p.nextId }
  match p.result with
  | .error cs => (s, .error cs)
  | .ok input => s.acceptTree input

/-! ### Running -/

/-- Runs the machine for at most `n` steps. -/
def resume (s : Session) (n : Nat) : Session :=
  { s with machine := s.machine.run ⟨s.distances, s.host⟩ n }

/-- How a loaded input ended. At the end of statements what was printed is delivered, and a fault
there takes the place of any other. -/
def ending (s : Session) (input : Grammar.Input) : Ending :=
  match s.machine.result?, input with
  | none, _ => .unfinished
  | some (.ok v), .expression _ => .done (some v)
  | some (.error f), .expression _ => .failed f
  | some r, .statements _ =>
    match s.machine.world.sink.flushFault?, r with
    | some f, _ => .failed (.sink f)
    | none, .ok _ => .done none
    | none, .error f => .failed f

/-- Runs what was accepted, for at most `n` steps. -/
def conclude (n : Nat) : Session × Except (List Complaint) Grammar.Input → Session × Ending
  | (s, .error cs) => (s, .refused cs)
  | (s, .ok input) =>
    let s := s.resume n
    (s, s.ending input)

/-- Runs a source text for at most `n` steps. -/
def submit (s : Session) (n : Nat) (mode : Grammar.Mode) (source : String) : Session × Ending :=
  conclude n (s.accept mode source)

def run (s : Session) (n : Nat) (source : String) : Session × Ending :=
  s.submit n .program source

def evaluate (s : Session) (n : Nat) (source : String) : Session × Ending :=
  s.submit n .expression source

def runLine (s : Session) (n : Nat) (source : String) : Session × Ending :=
  s.submit n .line source

/-! ### Views -/

/-- What was printed so far. -/
def output (s : Session) : ByteArray := s.machine.world.sink.written

/-- A global variable. -/
def global? (s : Session) (name : String) : Option Value :=
  s.machine.world.frames.get? Env.globals name

end Session

end Lox
