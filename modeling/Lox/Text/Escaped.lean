/-!
Strings in double quotes with escapes. A `Style` says how each character is written; two styles
are in use, one for showing a value and one for JSON.
-/

namespace Lox.Text

/-- How a character stands inside the quotes. -/
abbrev Style := Char → String

/-- The string in double quotes, each character as the style writes it. -/
def quote (style : Style) (s : String) : String :=
  let body := s.toList.foldl (fun out c => out ++ style c) "\""
  body ++ "\""

/-- The number of `c` in lower-case hexadecimal digits. -/
def hex (c : Char) : String :=
  String.ofList (Nat.toDigits 16 c.toNat)

/-- Characters that leave no mark of their own on a page, as first and last members of each run:
control and format characters, separators other than the blank, fillers and selectors, private use,
and what is no character at all. From the fourth plane on there is nothing else. -/
def invisibleRuns : List (Nat × Nat) :=
  [(0x00, 0x1F), (0x7F, 0xA0), (0xAD, 0xAD), (0x34F, 0x34F), (0x600, 0x605), (0x61C, 0x61C),
   (0x6DD, 0x6DD), (0x70F, 0x70F), (0x890, 0x891), (0x8E2, 0x8E2), (0x115F, 0x1160),
   (0x1680, 0x1680), (0x17B4, 0x17B5), (0x180B, 0x180F), (0x2000, 0x200F), (0x2028, 0x202F),
   (0x205F, 0x206F), (0x3000, 0x3000), (0x3164, 0x3164), (0xE000, 0xF8FF), (0xFDD0, 0xFDEF),
   (0xFE00, 0xFE0F), (0xFEFF, 0xFEFF), (0xFFA0, 0xFFA0), (0xFFF0, 0xFFFB), (0xFFFE, 0xFFFF),
   (0x110BD, 0x110BD), (0x110CD, 0x110CD), (0x13430, 0x1343F), (0x1BCA0, 0x1BCA3),
   (0x1D173, 0x1D17A), (0x1FFFE, 0x1FFFF), (0x2FFFE, 0x2FFFF), (0x3FFFE, 0x10FFFF)]

def isInvisible (c : Char) : Bool :=
  invisibleRuns.any fun (first, last) => first ≤ c.toNat && c.toNat ≤ last

/-- Values shown for inspection: invisible characters by number. -/
def shown : Style := fun c =>
  match c with
  | '\"' => "\\\""
  | '\\' => "\\\\"
  | '\n' => "\\n"
  | '\r' => "\\r"
  | '\t' => "\\t"
  | '\x00' => "\\0"
  | _ => if isInvisible c then "\\u\x7b" ++ hex c ++ "\x7d" else c.toString

/-- JSON: the short escapes where there is one, four digits for the other characters below the
blank. -/
def json : Style := fun c =>
  match c with
  | '\"' => "\\\""
  | '\\' => "\\\\"
  | '\x08' => "\\b"
  | '\x0c' => "\\f"
  | '\n' => "\\n"
  | '\r' => "\\r"
  | '\t' => "\\t"
  | _ =>
    if c.toNat < 0x20 then
      let digits := hex c
      "\\u" ++ String.ofList (List.replicate (4 - digits.length) '0') ++ digits
    else c.toString

end Lox.Text
