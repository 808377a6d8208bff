/-!
A double read apart into its sign and its exact magnitude `m * 2 ^ q`.

The interval of reals that round to a finite double is bounded by the midpoints to its two
neighbours. Both midpoints are whole multiples of `2 ^ (q - 2)`, so all comparisons with decimal
numbers stay within `Nat`.
-/

namespace Lox.Number

/-- What a double stands for. A finite one is `m * 2 ^ q`, negative if the flag is set. -/
inductive Binary
  | nan
  | infinite (negative : Bool)
  | finite (negative : Bool) (m : Nat) (q : Int)
deriving DecidableEq

namespace Binary

/-- The fields of a double: one sign bit, eleven exponent bits, fifty-two fraction bits. -/
def ofFloat (x : Float) : Binary :=
  let bits : Nat := x.toBits.toNat
  let negative := decide (Nat.pow 2 63 ≤ bits)
  let exponent : Nat := bits / Nat.pow 2 52 % Nat.pow 2 11
  let fraction : Nat := bits % Nat.pow 2 52
  if exponent = 2047 then
    if fraction = 0 then infinite negative else nan
  else if exponent = 0 then finite negative fraction (-1074)
  else finite negative (Nat.pow 2 52 + fraction) (exponent - 1075)

/-- The sign and the magnitude of a finite double without fractional part. -/
def whole? : Binary → Option (Bool × Nat)
  | finite negative m q =>
    if 0 ≤ q then some (negative, m * Nat.pow 2 q.toNat)
    else if m % Nat.pow 2 (-q).toNat = 0 then some (negative, m / Nat.pow 2 (-q).toNat)
    else none
  | _ => none

end Binary

/-- The distance to the midpoint below `m * 2 ^ q`, in quarters of `2 ^ q`. At the foot of a
binade the neighbour below is only half as far away as the one above. -/
def quartersBelow (m : Nat) (q : Int) : Nat :=
  if m = Nat.pow 2 52 ∧ q ≠ -1074 then 1 else 2

theorem quartersBelow_pos (m : Nat) (q : Int) : 0 < quartersBelow m q := by
  unfold quartersBelow; split <;> decide

end Lox.Number
