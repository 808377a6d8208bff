import Lox.Frames
import Lox.Tree.Stmt
import Lox.Number.Format
import Lox.Text.Escaped

/-!
Values.

Functions, classes and objects have a number each, which is their identity: two of them are equal
only if they are the same one. What changes over the life of a class or an object, that is its
fields, is kept apart under that number.
-/

namespace Lox

/-- A function declaration with the environment in which it was declared. -/
structure Closure where
  decl : FunctionDecl
  env : Env
  /-- Whether a call yields the object the function is bound to. -/
  isInitializer : Bool

namespace Closure

def name (c : Closure) : String := c.decl.name.lexeme

def arity (c : Closure) : Nat := c.decl.arity

end Closure

/-- A class with the methods of its objects and those of its own. -/
structure ClassInfo where
  name : String
  methods : Table Closure
  statics : Table Closure

/-- The name of the method that runs when an object is made. -/
def initName : String := "init"

namespace ClassInfo

def initializer? (c : ClassInfo) : Option Closure := c.methods.get? initName

/-- How many arguments it takes to make an object. -/
def arity (c : ClassInfo) : Nat :=
  match c.initializer? with
  | some f => f.arity
  | none => 0

end ClassInfo

/-- A function of the surroundings, known by its name. -/
structure Native where
  name : String
  arity : Nat
deriving DecidableEq

inductive Value
  | nil
  | boolean (b : Bool)
  | number (x : Float)
  | string (s : String)
  | native (n : Native)
  | function (id : Nat) (c : Closure)
  | classValue (id : Nat) (c : ClassInfo)
  | object (id : Nat) (c : ClassInfo)

instance : Inhabited Value := ⟨.nil⟩

namespace Value

/-- Only `nil` and `false` do not count as true. -/
def isTruthy : Value → Bool
  | nil => false
  | boolean b => b
  | _ => true

/-- Equality as the language has it: numbers as numbers, so that NaN differs from itself, and
functions, classes and objects by identity. -/
def equals : Value → Value → Bool
  | nil, nil => true
  | boolean a, boolean b => a == b
  | number a, number b => a == b
  | string a, string b => a == b
  | native a, native b => a == b
  | function a _, function b _ => a == b
  | classValue a _, classValue b _ => a == b
  | object a _, object b _ => a == b
  | _, _ => false

/-- Numbers as text: whole numbers in full, all others with their shortest digits, none with an
exponent. -/
def numberFormat : Number.Format where
  exactBelow := Nat.pow 2 1024
  exactTail := ""
  shortTail := ""
  zeroSign := true
  positional := none
  tie := .up
  infinity := "inf"
  negativeInfinity := "-inf"
  nan := "NaN"

/-- The text of a value, as it is printed. -/
def text : Value → String
  | nil => "nil"
  | boolean true => "true"
  | boolean false => "false"
  | number x => numberFormat.write x
  | string s => s
  | native _ => "<native fn>"
  | function _ c => "<fn " ++ c.name ++ ">"
  | classValue _ c => c.name
  | object _ c => c.name ++ " instance"

/-- The text of a value for inspection, in which strings stand out by their quotes. -/
def shown : Value → String
  | string s => Text.quote Text.shown s
  | v => v.text

/-- How many arguments a value takes, if it can be called. -/
def arity? : Value → Option Nat
  | native n => some n.arity
  | function _ c => some c.arity
  | classValue _ c => some c.arity
  | _ => none

end Value

end Lox
