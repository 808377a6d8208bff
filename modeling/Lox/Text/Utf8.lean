/-!
Reading bytes as UTF-8, with an exact account of the first fault.

`read` looks at one character. Its answers tell a fault that more bytes cannot mend from input
that ends too early, and how many bytes belong to the fault.
-/

namespace Lox.Text.Utf8

/-- What stands at the front of a list of bytes. -/
inductive Front
  | char (width : Nat)
  | invalid (width : Nat)
  | incomplete
deriving DecidableEq

def isContinuation (b : UInt8) : Bool := 0x80 ≤ b && b ≤ 0xBF

/-- The least and the greatest second byte that the leading byte of a character of three or four
bytes allows. They exclude long forms of short characters, surrogates and numbers beyond the
last character. -/
def secondRange (lead : UInt8) : UInt8 × UInt8 :=
  if lead = 0xE0 then (0xA0, 0xBF)
  else if lead = 0xED then (0x80, 0x9F)
  else if lead = 0xF0 then (0x90, 0xBF)
  else if lead = 0xF4 then (0x80, 0x8F)
  else (0x80, 0xBF)

/-- `need` continuation bytes after the first `seen` bytes of a character. -/
def continuations (seen : Nat) : Nat → List UInt8 → Front
  | 0, _ => .char seen
  | _ + 1, [] => .incomplete
  | need + 1, b :: rest =>
    if isContinuation b then continuations (seen + 1) need rest else .invalid seen

/-- A character of more than two bytes, whose second byte the first restricts. -/
def long (lead : UInt8) (need : Nat) : List UInt8 → Front
  | [] => .incomplete
  | b :: rest =>
    let (least, greatest) := secondRange lead
    if least ≤ b && b ≤ greatest then continuations 2 need rest else .invalid 1

/-- The character at the front of `lead :: rest`. -/
def read (lead : UInt8) (rest : List UInt8) : Front :=
  if lead < 0x80 then .char 1
  else if 0xC2 ≤ lead && lead ≤ 0xDF then continuations 1 1 rest
  else if 0xE0 ≤ lead && lead ≤ 0xEF then long lead 1 rest
  else if 0xF0 ≤ lead && lead ≤ 0xF4 then long lead 2 rest
  else .invalid 1

/-- A fault in a list of bytes: where it starts, and how many bytes it has unless the bytes end
within a character. -/
structure Fault where
  index : Nat
  width : Option Nat
deriving DecidableEq

def Fault.message (f : Fault) : String :=
  match f.width with
  | some n => "invalid utf-8 sequence of " ++ toString n ++ " bytes from index " ++ toString f.index
  | none => "incomplete utf-8 byte sequence from index " ++ toString f.index

/-- Looks for the first fault, `index` bytes having been read. -/
def faultFrom (index : Nat) : List UInt8 → Option Fault
  | [] => none
  | lead :: rest =>
    match read lead rest with
    | .char w => faultFrom (index + 1 + (w - 1)) (rest.drop (w - 1))
    | .invalid w => some ⟨index, some w⟩
    | .incomplete => some ⟨index, none⟩
termination_by bytes => bytes.length
decreasing_by simp only [List.length_drop, List.length_cons]; omega

/-- The text of the bytes, or their first fault. -/
def decode (bytes : ByteArray) : Except Fault String :=
  match String.fromUTF8? bytes with
  | some s => .ok s
  | none => .error ((faultFrom 0 bytes.toList).getD ⟨0, none⟩)

/-- The text of the bytes up to their first fault, and a replacement character for the rest. -/
def decodeFront (bytes : ByteArray) : String :=
  match decode bytes with
  | .ok s => s
  | .error f => (String.fromUTF8? (bytes.extract 0 f.index)).getD "" ++ "\uFFFD"

end Lox.Text.Utf8
