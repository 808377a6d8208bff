import Lox.Operator
import Lox.Scope.Distances
import Lox.Sink

/-!
The state of a machine that runs programs.

The machine has one thing in hand, and a list of what waits for it, the next first. No part of
the state hides in a recursion, so calls may nest as deep as the limit allows, and what holds
between any two steps can be said of the state alone.
-/

namespace Lox.Machine

/-- What the surroundings of a program answer when a native function is called: a value, or a
message of failure. -/
abbrev Host := String → List Value → Except String Value

/-- What does not change during a run. -/
structure Setting where
  distances : Scope.Distances
  host : Host

/-- What a program can change. -/
structure World where
  frames : Frames Value
  /-- The fields of each class and object, by its number. -/
  fields : Array (Table Value)
  /-- How many functions there are; the number of the next one. -/
  functions : Nat
  sink : Sink

/-- A way out of several constructs at once. -/
inductive Exit
  | leaveLoop
  | leaveCall (v : Value)
  | fail (f : Failure)

/-- What the machine has in hand. A statement that is done has the value `nil`. -/
inductive Control
  | eval (e : Expr)
  | exec (s : Stmt)
  | execAll (body : List Stmt)
  | value (v : Value)
  | exit (x : Exit)

/-- What waits for a value, or for a way out to pass. -/
inductive Pending
  | unary (op : Token)
  | binaryLeft (op : Token) (right : Expr)
  | binaryRight (left : Value) (op : Token)
  | logical (op : Token) (right : Expr)
  | conditional (whenTrue whenFalse : Expr)
  | assign (id : NodeId) (name : Token)
  | callee (paren : Token) (arguments : List Expr)
  /-- An argument of a call; those already there stand last first. -/
  | argument (callee : Value) (paren : Token) (found : List Value) (rest : List Expr)
  | property (name : Token)
  | target (name : Token) (value : Expr)
  /-- The value of a field of the class or object with this number. -/
  | field (owner : Nat) (name : Token)
  | discard
  | print
  | declare (name : Token)
  | branch (whenTrue : Stmt) (whenFalse : Option Stmt)
  | loopTest (condition : Expr) (body : Stmt)
  | loopBody (condition : Expr) (body : Stmt)
  | giveBack
  | sequence (rest : List Stmt)
  /-- The end of a block; the environment around it. -/
  | leaveBlock (env : Env)
  /-- The end of a call of a function; the environment of the caller. -/
  | leaveCall (env : Env) (c : Closure)
  /-- The end of the initializer of an object. -/
  | construct (object : Value)

end Machine

/-- A machine in the middle of a run, or at its end. -/
structure Machine where
  control : Machine.Control
  pending : List Machine.Pending
  env : Env
  /-- How many calls of functions are in progress. -/
  depth : Nat
  world : Machine.World

/-- The environment of the top level: its only frame is the first one. -/
def Env.globals : Env := [0]

/-- A closure inside one more frame. -/
def Closure.within (c : Closure) (f : FrameId) : Closure :=
  { c with env := f :: c.env }

namespace Machine

/-- The greatest number of calls in progress. -/
def maxDepth : Nat := 16384

namespace World

/-! ### Variables -/

/-- Creates a frame. Its number is `w.frames.next`. -/
def addFrame (w : World) (t : Table Value) : World :=
  { w with frames := w.frames.push t }

def define (w : World) (env : Env) (name : String) (v : Value) : World :=
  { w with frames := w.frames.define env name v }

def write (w : World) (f : FrameId) (name : String) (v : Value) : World :=
  { w with frames := w.frames.write f name v }

/-! ### Fields -/

/-- The number of the next class or object. -/
def nextOwner (w : World) : Nat := w.fields.size

/-- Makes room for the fields of one more class or object. -/
def addOwner (w : World) : World :=
  { w with fields := w.fields.push [] }

/-- A field of a class or object. -/
def field? (w : World) (owner : Nat) (name : String) : Option Value :=
  (w.fields[owner]?).bind (·.get? name)

def setField (w : World) (owner : Nat) (name : String) (v : Value) : World :=
  { w with fields := w.fields.modify owner (·.insert name v) }

@[simp] theorem nextOwner_addOwner (w : World) : w.addOwner.nextOwner = w.nextOwner + 1 :=
  Array.size_push ..

@[simp] theorem nextOwner_setField (w : World) (owner : Nat) (name : String) (v : Value) :
    (w.setField owner name v).nextOwner = w.nextOwner :=
  Array.size_modify ..

/-- A new class or object has no fields. -/
@[simp] theorem field?_addOwner (w : World) (owner : Nat) (name : String) :
    w.addOwner.field? owner name = w.field? owner name := by
  unfold field? addOwner
  rw [Array.getElem?_push]
  split
  · rename_i h
    rw [h, Array.getElem?_eq_none (Nat.le_refl _)]
    rfl
  · rfl

theorem field?_setField (w : World) (owner : Nat) (name : String) (v : Value) (other : Nat)
    (name' : String) :
    (w.setField owner name v).field? other name' =
      if owner = other ∧ name = name' ∧ owner < w.nextOwner then some v
      else w.field? other name' := by
  unfold field? setField nextOwner
  rw [Array.getElem?_modify]
  by_cases hother : owner = other
  · subst hother
    by_cases hlt : owner < w.fields.size
    · simp only [hlt, and_true, if_true, getElem?_pos, Option.map_some, Option.bind_some,
        Table.get?_insert, true_and]
    · simp [hlt]
  · simp [hother]

/-! ### Functions and output -/

/-- Counts one more function. -/
def addFunction (w : World) : World :=
  { w with functions := w.functions + 1 }

def put (w : World) (bytes : ByteArray) : World :=
  { w with sink := w.sink.put bytes }

end World

end Machine

end Lox
