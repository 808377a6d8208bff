import Lox.Failure
import Lox.Frames
import Lox.Token

/-!
Frames addressed by themselves: each frame knows the environment that it heads.

A forest is grown from roots by adding frames under frames. Reading and writing start at any
frame and go outward. All that can be done with a forest is asked of it by requests, one after
another.
-/

namespace Lox

/-- Frames together with the environment of each, that is the frame itself and then those around
it. -/
structure Forest (α : Type) where
  frames : Frames α
  envs : Array Env

namespace Forest

variable {α : Type}

def empty : Forest α := ⟨.empty, #[]⟩

/-- The environment that a frame heads. -/
def env (s : Forest α) (f : FrameId) : Env := (s.envs[f]?).getD []

/-- Adds an empty frame inside the given environment. Its number is `s.frames.next`. -/
def grow (s : Forest α) (around : Env) : Forest α :=
  ⟨s.frames.push [], s.envs.push (s.frames.next :: around)⟩

/-- Adds a frame with nothing around it. -/
def addRoot (s : Forest α) : Forest α := s.grow []

/-- Adds a frame directly inside another. -/
def addChild (s : Forest α) (f : FrameId) : Forest α := s.grow (s.env f)

def define (s : Forest α) (f : FrameId) (name : String) (a : α) : Forest α :=
  { s with frames := s.frames.define (s.env f) name a }

def own? (s : Forest α) (f : FrameId) (name : String) : Option α := s.frames.own? f name

def get? (s : Forest α) (f : FrameId) (name : String) : Option α :=
  s.frames.get? (s.env f) name

def getAt? (s : Forest α) (f : FrameId) (depth : Nat) (name : String) : Option α :=
  s.frames.getAt? (s.env f) depth name

def assign? (s : Forest α) (f : FrameId) (name : String) (a : α) : Option (Forest α) :=
  (s.frames.assign? (s.env f) name a).map fun frames => { s with frames }

def assignAt? (s : Forest α) (f : FrameId) (depth : Nat) (name : String) (a : α) :
    Option (Forest α) :=
  (s.frames.assignAt? (s.env f) depth name a).map fun frames => { s with frames }

/-! ### Requests -/

/-- What can be asked of a forest. Where a name may turn out to be undefined, it is a token, which
has a line. -/
inductive Request (α : Type)
  | root
  | child (f : FrameId)
  | define (f : FrameId) (name : String) (a : α)
  | own (f : FrameId) (name : String)
  | get (f : FrameId) (name : Token)
  | getAt (f : FrameId) (depth : Nat) (name : Token)
  | assign (f : FrameId) (name : Token) (a : α)
  | assignAt (f : FrameId) (depth : Nat) (name : Token) (a : α)

inductive Reply (α : Type)
  /-- The number of a new frame. -/
  | frame (f : FrameId)
  | written
  | value (a : α)
  /-- The frame itself has no such variable. -/
  | unbound
  | failed (f : Failure)

/-- The failure of a request for a variable that is not there. -/
def undefined (name : Token) : Failure := .runtime name.line (.undefinedVariable name.lexeme)

/-- The reply to a request to read. -/
def replyFound (name : Token) : Option α → Reply α
  | some a => .value a
  | none => .failed (undefined name)

/-- The outcome of a request to overwrite. A failure leaves the forest as it is. -/
def replaceBy (s : Forest α) (name : Token) : Option (Forest α) → Forest α × Reply α
  | some s' => (s', .written)
  | none => (s, .failed (undefined name))

/-- The forest after a request, and the reply. -/
def answer (s : Forest α) : Request α → Forest α × Reply α
  | .root => (s.addRoot, .frame s.frames.next)
  | .child f => (s.addChild f, .frame s.frames.next)
  | .define f name a => (s.define f name a, .written)
  | .own f name => (s, (s.own? f name).elim .unbound .value)
  | .get f name => (s, replyFound name (s.get? f name.lexeme))
  | .getAt f depth name => (s, replyFound name (s.getAt? f depth name.lexeme))
  | .assign f name a => s.replaceBy name (s.assign? f name.lexeme a)
  | .assignAt f depth name a => s.replaceBy name (s.assignAt? f depth name.lexeme a)

end Forest

end Lox
