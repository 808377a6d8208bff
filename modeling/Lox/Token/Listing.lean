import Lox.Token
import Lox.Number.Format
import Lox.Text.Escaped

/-!
Two listings of tokens: one line of plain words per token, and one JSON object per token.
-/

namespace Lox.Token

/-- Numbers in the plain listing: whole numbers below `2 ^ 63` have one decimal and no sign at
zero; all others are written with their shortest digits and no exponent. -/
def plainNumber : Number.Format where
  exactBelow := Nat.pow 2 63
  exactTail := ".0"
  shortTail := ""
  zeroSign := false
  positional := none
  tie := .up
  infinity := "inf"
  negativeInfinity := "-inf"
  nan := "NaN"

/-- Numbers in JSON: shortest digits with at least one decimal, and an exponent below `0.00001`
and from `10 ^ 16` on. JSON has no infinities. -/
def jsonNumber : Number.Format where
  exactBelow := 0
  exactTail := ".0"
  shortTail := ".0"
  zeroSign := true
  positional := some (-5, 16)
  tie := .even
  infinity := "null"
  negativeInfinity := "null"
  nan := "null"

/-- The value in the plain listing. -/
def literalText : Kind → String
  | .string s => s
  | .number x => plainNumber.write x
  | _ => "null"

/-- Kind, source text and value. -/
def listing (t : Token) : String :=
  t.kind.label ++ " " ++ t.lexeme ++ " " ++ literalText t.kind

def jsonKind : Kind → String
  | .string s => "\x7b\"STRING\":" ++ Text.quote Text.json s ++ "\x7d"
  | .number x => "\x7b\"NUMBER\":" ++ jsonNumber.write x ++ "\x7d"
  | k => Text.quote Text.json k.label

/-- The token as a JSON object. -/
def json (t : Token) : String :=
  "\x7b\"token_type\":" ++ jsonKind t.kind ++ ",\"lexeme\":" ++ Text.quote Text.json t.lexeme ++
    ",\"line\":" ++ toString t.line ++ "\x7d"

end Lox.Token
