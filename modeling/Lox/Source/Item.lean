import Lox.Source.Segment

/-!
The items of a source text: its tokens and its faults in order, each with its line, and one
end-of-input token at the close.

The line of an item is one more than the number of line breaks up to the end of its text.
-/

namespace Lox.Source

/-- A token, or a fault with its line. -/
inductive Item
  | token (t : Token)
  | fault (line : Nat) (f : Fault)
deriving DecidableEq

def lineBreaks (cs : List Char) : Nat := cs.count '\n'

/-- The item of a segment that ends on the given line, if it has one. -/
def Segment.item? (s : Segment) (line : Nat) : Option Item :=
  match s.role with
  | .blank | .comment => none
  | .token k => some (.token ⟨k, String.ofList s.text, line⟩)
  | .fault f => some (.fault line f)

/-- The items of segments that start on the given line, after those already found. -/
def itemsAfter (found : List Item) (line : Nat) : List Segment → List Item
  | [] => (Item.token ⟨.eof, "", line⟩ :: found).reverse
  | s :: rest =>
    let line := line + lineBreaks s.text
    itemsAfter ((s.item? line).toList ++ found) line rest

/-- The items of a source text. -/
def items (source : String) : List Item :=
  itemsAfter [] 1 (segments source.toList)

def Item.token? : Item → Option Token
  | token t => some t
  | fault .. => none

def Item.fault? : Item → Option (Nat × Fault)
  | token _ => none
  | fault line f => some (line, f)

/-- The tokens among the items. -/
def tokens (source : String) : List Token :=
  (items source).filterMap Item.token?

/-- The faults among the items, with their lines. -/
def faults (source : String) : List (Nat × Fault) :=
  (items source).filterMap Item.fault?

/-- The token that a lexeme stands for on a line: its kind is that of the first token read from
it, and the end of input if there is none. -/
def tokenOfLexeme (lexeme : String) (line : Nat) : Token :=
  ⟨((tokens lexeme).head?.map (·.kind)).getD .eof, lexeme, line⟩

end Lox.Source
