import Lox.Table

/-!
Frames of variables, kept in one store and never removed.

An environment lists the frames that are visible at a point, innermost first. Code that was
declared at one point and runs at another brings its own environment, so environments that share
frames also share what is written there.
-/

namespace Lox

/-- The number of a frame, in order of creation. -/
abbrev FrameId := Nat

/-- The visible frames, innermost first. -/
abbrev Env := List FrameId

/-- All frames that were ever created, each a table of its own variables. -/
structure Frames (α : Type) where
  tables : Array (Table α)

namespace Frames

variable {α : Type}

def empty : Frames α := ⟨#[]⟩

/-- The number of the next frame. -/
def next (s : Frames α) : FrameId := s.tables.size

/-- Creates a frame with the given variables. Its number is `s.next`. -/
def push (s : Frames α) (t : Table α) : Frames α := ⟨s.tables.push t⟩

/-- A variable of one frame. -/
def own? (s : Frames α) (f : FrameId) (name : String) : Option α :=
  (s.tables[f]?).bind (·.get? name)

/-- Creates or overwrites a variable of one frame. -/
def write (s : Frames α) (f : FrameId) (name : String) (a : α) : Frames α :=
  ⟨s.tables.modify f (·.insert name a)⟩

/-- Whether a frame has a variable. -/
def binds (s : Frames α) (name : String) (f : FrameId) : Bool :=
  (s.own? f name).isSome

/-- Creates or overwrites a variable of the innermost frame. -/
def define (s : Frames α) (env : Env) (name : String) (a : α) : Frames α :=
  match env with
  | [] => s
  | f :: _ => s.write f name a

/-- The innermost visible frame that has a variable. -/
def holder? (s : Frames α) (env : Env) (name : String) : Option FrameId :=
  env.find? (s.binds name)

/-- The visible frame that stands `depth` frames outward, if it has a variable. -/
def holderAt? (s : Frames α) (env : Env) (depth : Nat) (name : String) : Option FrameId :=
  (env[depth]?).filter (s.binds name)

/-- The variable of the innermost visible frame that has it. -/
def get? (s : Frames α) (env : Env) (name : String) : Option α :=
  (s.holder? env name).bind (s.own? · name)

/-- Overwrites the variable of the innermost visible frame that has it. -/
def assign? (s : Frames α) (env : Env) (name : String) (a : α) : Option (Frames α) :=
  (s.holder? env name).map (s.write · name a)

/-- The variable of the visible frame that stands `depth` frames outward. -/
def getAt? (s : Frames α) (env : Env) (depth : Nat) (name : String) : Option α :=
  (env[depth]?).bind (s.own? · name)

/-- Overwrites the variable of the visible frame that stands `depth` frames outward, if it has
it. -/
def assignAt? (s : Frames α) (env : Env) (depth : Nat) (name : String) (a : α) :
    Option (Frames α) :=
  (s.holderAt? env depth name).map (s.write · name a)

/-! ### Reading what was written -/

theorem own?_write (s : Frames α) (f : FrameId) (name : String) (a : α) (g : FrameId)
    (other : String) :
    (s.write f name a).own? g other =
      if f = g ∧ name = other ∧ f < s.next then some a else s.own? g other := by
  unfold own? write next
  rw [Array.getElem?_modify]
  by_cases hf : f = g
  · subst hf
    by_cases hlt : f < s.tables.size
    · simp only [hlt, and_true, if_true, getElem?_pos, Option.map_some, Option.bind_some,
        Table.get?_insert, true_and]
    · simp [hlt]
  · simp [hf]

@[simp] theorem next_write (s : Frames α) (f : FrameId) (name : String) (a : α) :
    (s.write f name a).next = s.next := by
  simp [write, next]

@[simp] theorem next_push (s : Frames α) (t : Table α) : (s.push t).next = s.next + 1 := by
  simp [push, next]

theorem own?_push (s : Frames α) (t : Table α) (g : FrameId) (name : String) :
    (s.push t).own? g name = if g = s.next then t.get? name else s.own? g name := by
  unfold own? push next
  rw [Array.getElem?_push]
  split <;> simp

theorem get?_singleton (s : Frames α) (f : FrameId) (name : String) :
    s.get? [f] name = s.own? f name := by
  cases h : s.own? f name <;> simp [get?, holder?, binds, h]

/-- What is read at a distance is the variable of the frame that is found there. -/
theorem getAt?_eq (s : Frames α) (env : Env) (depth : Nat) (name : String) :
    s.getAt? env depth name = (s.holderAt? env depth name).bind (s.own? · name) := by
  unfold getAt? holderAt?
  cases env[depth]? with
  | none => rfl
  | some f => cases hown : s.own? f name <;> simp [Option.filter, binds, hown]

end Frames

end Lox
