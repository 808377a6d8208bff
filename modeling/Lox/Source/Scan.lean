import Lox.Source.Item

/-!
The items of a source text, found in one pass with a counter of lines.

A line break is counted where it is met: between tokens, in a string or in a block comment. A
comment to the end of the line is jumped over, and the line break behind it is met after it.
-/

namespace Lox.Source

/-- The counter after one more character. -/
def countChar (line : Nat) (c : Char) : Nat := if c = '\n' then line + 1 else line

/-- The counter at the end of a string, its opening quote having been read. -/
def countString (line : Nat) : List Char → Nat
  | [] => line
  | c :: cs => if c = '\"' then line else countString (countChar line c) cs

/-- The counter at the end of a block comment from here on, `depth` openers beyond the outermost
being open. -/
def countComment (depth line : Nat) : List Char → Nat
  | [] => line
  | '/' :: '*' :: r => countComment (depth + 1) line r
  | '*' :: '/' :: r =>
    match depth with
    | 0 => line
    | d + 1 => countComment d line r
  | c :: r => countComment depth (countChar line c) r

/-- The counter after the segment at the front of `c :: cs`. -/
def countFirst (line : Nat) (c : Char) (cs : List Char) : Nat :=
  if c = '\"' then countString line cs
  else if c = '/' then
    match cs with
    | '*' :: r => countComment 0 line r
    | _ => line
  else countChar line c

/-- The items of a text, after those already found, the last of which comes first. -/
def scanAfter (found : List Item) (line : Nat) : List Char → List Item
  | [] => (Item.token ⟨.eof, "", line⟩ :: found).reverse
  | c :: cs =>
    let line := countFirst line c cs
    scanAfter (((first c cs).1.item? line).toList ++ found) line (first c cs).2
termination_by cs => cs.length
decreasing_by exact Nat.lt_succ_of_le (first_rest_length c cs)

/-- The items of a source text, one after another. -/
def scan (source : String) : List Item := scanAfter [] 1 source.toList

end Lox.Source
