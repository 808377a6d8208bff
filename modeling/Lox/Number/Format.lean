import Lox.Number.Shortest

/-!
How a number is written. A `Format` holds the decisions a place of output makes, and `write`
carries them out on the exact value of the double.
-/

namespace Lox.Number

/-- The decisions behind a written number. -/
structure Format where
  /-- Whole numbers of a smaller magnitude are written out exactly; larger ones are shortened. -/
  exactBelow : Nat
  /-- What follows a whole number that is written out exactly. -/
  exactTail : String
  /-- What follows a shortened whole number in positional notation. -/
  shortTail : String
  /-- Whether a negative zero keeps its sign. -/
  zeroSign : Bool
  /-- The decimal exponents, first included and last excluded, written in positional notation;
  with none, all of them are. -/
  positional : Option (Int × Int)
  tie : Tie
  infinity : String
  negativeInfinity : String
  nan : String

namespace Decimal

/-- The digits in positional notation: zeros are filled in up to the point or after it. -/
def positional (d : Decimal) (wholeTail : String) : String :=
  let ds := toString d.digits
  if 0 ≤ d.exponent then ds ++ String.ofList (List.replicate d.exponent.toNat '0') ++ wholeTail
  else
    let places := (-d.exponent).toNat
    let padded := List.replicate (places + 1 - ds.length) '0' ++ ds.toList
    let (front, back) := padded.splitAt (padded.length - places)
    String.ofList front ++ "." ++ String.ofList back

/-- The power of ten of the leading digit. -/
def leading (d : Decimal) : Int :=
  d.exponent + (toString d.digits).length - 1

/-- One digit, a point if more follow, and the power of ten of the leading digit with its sign. -/
def scientific (d : Decimal) : String :=
  let e := d.leading
  let mantissa :=
    match (toString d.digits).toList with
    | [] => ""
    | [c] => c.toString
    | c :: cs => c.toString ++ "." ++ String.ofList cs
  mantissa ++ "e" ++ (if e < 0 then "-" else "+") ++ toString e.natAbs

end Decimal

namespace Format

def writeShort (f : Format) (d : Decimal) : String :=
  match f.positional with
  | some (first, last) =>
    if first ≤ d.leading && d.leading < last then d.positional f.shortTail else d.scientific
  | none => d.positional f.shortTail

def writeMagnitude (f : Format) (m : Nat) (q : Int) : String :=
  match (Binary.finite false m q).whole? with
  | some (_, n) => if n < f.exactBelow then toString n ++ f.exactTail else f.writeShort (shortest m q f.tie)
  | none => f.writeShort (shortest m q f.tie)

def writeBinary (f : Format) : Binary → String
  | .nan => f.nan
  | .infinite negative => if negative then f.negativeInfinity else f.infinity
  | .finite negative m q =>
    (if negative && (f.zeroSign || m != 0) then "-" else "") ++ f.writeMagnitude m q

def write (f : Format) (x : Float) : String :=
  f.writeBinary (.ofFloat x)

end Format

end Lox.Number
