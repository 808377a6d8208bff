import Lox.Failure

/-!
Where output goes: the bytes delivered so far, and how many more there is room for.
-/

namespace Lox

structure Sink where
  written : ByteArray
  /-- How many more bytes are taken; any number if there is none. -/
  room : Option Nat
  /-- Whether delivery at the end of a program fails. -/
  flushFails : Bool

namespace Sink

/-- A sink that takes everything. -/
def unlimited : Sink := ⟨.empty, none, false⟩

/-- A sink that takes at most `n` bytes. -/
def ofSize (n : Nat) : Sink := ⟨.empty, some n, false⟩

/-- Whether there is room for so many bytes. -/
def hasRoom (s : Sink) (n : Nat) : Bool :=
  match s.room with
  | none => true
  | some k => n ≤ k

/-- Delivers bytes as far as there is room. -/
def put (s : Sink) (bytes : ByteArray) : Sink :=
  match s with
  | ⟨written, none, flushFails⟩ => ⟨written ++ bytes, none, flushFails⟩
  | ⟨written, some k, flushFails⟩ =>
    ⟨written ++ bytes.extract 0 (min bytes.size k), some (k - bytes.size), flushFails⟩

/-- The fault at the end of a program, if any. -/
def flushFault? (s : Sink) : Option SinkFault :=
  if s.flushFails then some .notFlushed else none

end Sink

end Lox
