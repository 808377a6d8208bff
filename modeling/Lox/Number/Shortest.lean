import Lox.Number.Binary

/-!
The shortest decimal number that reads back as a given double.

A decimal number `d * 10 ^ k` is a point of the grid of step `10 ^ k`. Grids are tried from coarse
to fine, and the first that has a point among the reals that round to the double has the shortest
such numbers. On it the point next to the double is taken.
-/

namespace Lox.Number

/-- The decimal number `digits * 10 ^ exponent`. -/
structure Decimal where
  digits : Nat
  exponent : Int
deriving DecidableEq

/-- Which of two equally near points is taken. -/
inductive Tie
  | up
  | even
deriving DecidableEq

/-- The reals that round to a double, next to a grid of step `10 ^ k`, all in one unit: the double
itself, the two ends, and the step. The ends belong to the interval if `closed`. -/
structure Window where
  low : Nat
  value : Nat
  high : Nat
  step : Nat
  closed : Bool

namespace Window

/-- The window of `m * 2 ^ q` on the grid of step `10 ^ k`. The unit is the quarter of `2 ^ q`
over whatever powers of two and ten make all four numbers whole. -/
def ofGrid (m : Nat) (q k : Int) : Window :=
  let scale := Nat.pow 2 (q - 2).toNat * Nat.pow 10 (-k).toNat
  { low := (4 * m - quartersBelow m q) * scale
    value := 4 * m * scale
    high := (4 * m + 2) * scale
    step := Nat.pow 10 k.toNat * Nat.pow 2 (2 - q).toNat
    closed := m % 2 = 0 }

def holds (w : Window) (d : Nat) : Bool :=
  let p := d * w.step
  if w.closed then w.low ≤ p && p ≤ w.high else w.low < p && p < w.high

/-- The point of the grid next to the double, if one of its two neighbours lies in the window. -/
def nearest? (w : Window) (tie : Tie) : Option Nat :=
  let d := w.value / w.step
  match w.holds d, w.holds (d + 1) with
  | false, false => none
  | true, false => some d
  | false, true => some (d + 1)
  | true, true =>
    match compare (w.value - d * w.step) ((d + 1) * w.step - w.value), tie with
    | .lt, _ => some d
    | .gt, _ => some (d + 1)
    | .eq, .up => some (d + 1)
    | .eq, .even => if d % 2 = 0 then some d else some (d + 1)

end Window

/-- Tries the grids `10 ^ k`, `10 ^ (k - 1)`, … in turn. -/
def firstOnGrids (m : Nat) (q : Int) (tie : Tie) : Nat → Int → Decimal
  | 0, k => ⟨(Window.ofGrid m q k).value / (Window.ofGrid m q k).step, k⟩
  | n + 1, k =>
    match (Window.ofGrid m q k).nearest? tie with
    | some d => ⟨d, k⟩
    | none => firstOnGrids m q tie n (k - 1)

/-- The shortest decimal number among the reals that round to `m * 2 ^ q`. The first grid is
coarser than the double: `30103 / 100000` is just above the decimal logarithm of two. Seventeen
digits always read back, so twenty grids are enough. -/
def shortest (m : Nat) (q : Int) (tie : Tie) : Decimal :=
  if m = 0 then ⟨0, 0⟩
  else firstOnGrids m q tie 20 ((m.log2 + 1 + q) * 30103 / 100000 + 1)

end Lox.Number
