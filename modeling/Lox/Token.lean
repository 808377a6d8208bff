/-!
Tokens: punctuation, reserved words, names and literals, each with its source text and line.

The written forms of symbols and reserved words are given once, in `text`; reading goes through
`ofChar?`, `ofPair?` and `ofWord?`, which are proved to accept exactly those forms.
-/

namespace Lox

/-- Punctuation and operators. -/
inductive Symbol
  | leftParen | rightParen | leftBrace | rightBrace
  | comma | dot | minus | plus | semicolon | slash | star | question | colon
  | bang | bangEqual | equal | equalEqual
  | greater | greaterEqual | less | lessEqual
deriving DecidableEq

namespace Symbol

def text : Symbol → String
  | leftParen => "("
  | rightParen => ")"
  | leftBrace => "\x7b"
  | rightBrace => "\x7d"
  | comma => ","
  | dot => "."
  | minus => "-"
  | plus => "+"
  | semicolon => ";"
  | slash => "/"
  | star => "*"
  | question => "?"
  | colon => ":"
  | bang => "!"
  | bangEqual => "!="
  | equal => "="
  | equalEqual => "=="
  | greater => ">"
  | greaterEqual => ">="
  | less => "<"
  | lessEqual => "<="

/-- The name of the symbol in listings. -/
def label : Symbol → String
  | leftParen => "LEFT_PAREN"
  | rightParen => "RIGHT_PAREN"
  | leftBrace => "LEFT_BRACE"
  | rightBrace => "RIGHT_BRACE"
  | comma => "COMMA"
  | dot => "DOT"
  | minus => "MINUS"
  | plus => "PLUS"
  | semicolon => "SEMICOLON"
  | slash => "SLASH"
  | star => "STAR"
  | question => "QUESTION"
  | colon => "COLON"
  | bang => "BANG"
  | bangEqual => "BANG_EQUAL"
  | equal => "EQUAL"
  | equalEqual => "EQUAL_EQUAL"
  | greater => "GREATER"
  | greaterEqual => "GREATER_EQUAL"
  | less => "LESS"
  | lessEqual => "LESS_EQUAL"

def ofChar? : Char → Option Symbol
  | '(' => some leftParen
  | ')' => some rightParen
  | '\x7b' => some leftBrace
  | '\x7d' => some rightBrace
  | ',' => some comma
  | '.' => some dot
  | '-' => some minus
  | '+' => some plus
  | ';' => some semicolon
  | '/' => some slash
  | '*' => some star
  | '?' => some question
  | ':' => some colon
  | '!' => some bang
  | '=' => some equal
  | '>' => some greater
  | '<' => some less
  | _ => none

/-- Operators of two characters; the second is always an equals sign. -/
def ofPair? (c d : Char) : Option Symbol :=
  if d = '=' then
    match c with
    | '!' => some bangEqual
    | '=' => some equalEqual
    | '>' => some greaterEqual
    | '<' => some lessEqual
    | _ => none
  else none

theorem text_of_ofChar? {c : Char} {s : Symbol} (h : ofChar? c = some s) :
    s.text = String.ofList [c] := by
  unfold ofChar? at h
  split at h <;> simp_all <;> subst h <;> rfl

theorem text_of_ofPair? {c d : Char} {s : Symbol} (h : ofPair? c d = some s) :
    s.text = String.ofList [c, d] := by
  unfold ofPair? at h
  split at h
  · split at h <;> simp_all <;> subst h <;> rfl
  · simp at h

end Symbol

/-- Reserved words. -/
inductive Keyword
  | kwAnd | kwBreak | kwClass | kwElse | kwFalse | kwFor | kwFun | kwIf
  | kwNil | kwOr | kwPrint | kwReturn | kwThis | kwTrue | kwVar | kwWhile
deriving DecidableEq

namespace Keyword

def text : Keyword → String
  | kwAnd => "and"
  | kwBreak => "break"
  | kwClass => "class"
  | kwElse => "else"
  | kwFalse => "false"
  | kwFor => "for"
  | kwFun => "fun"
  | kwIf => "if"
  | kwNil => "nil"
  | kwOr => "or"
  | kwPrint => "print"
  | kwReturn => "return"
  | kwThis => "this"
  | kwTrue => "true"
  | kwVar => "var"
  | kwWhile => "while"

/-- The name of the word in listings. -/
def label : Keyword → String
  | kwAnd => "AND"
  | kwBreak => "BREAK"
  | kwClass => "CLASS"
  | kwElse => "ELSE"
  | kwFalse => "FALSE"
  | kwFor => "FOR"
  | kwFun => "FUN"
  | kwIf => "IF"
  | kwNil => "NIL"
  | kwOr => "OR"
  | kwPrint => "PRINT"
  | kwReturn => "RETURN"
  | kwThis => "THIS"
  | kwTrue => "TRUE"
  | kwVar => "VAR"
  | kwWhile => "WHILE"

def all : List Keyword :=
  [kwAnd, kwBreak, kwClass, kwElse, kwFalse, kwFor, kwFun, kwIf,
   kwNil, kwOr, kwPrint, kwReturn, kwThis, kwTrue, kwVar, kwWhile]

def ofWord? (w : String) : Option Keyword :=
  all.find? fun k => k.text = w

theorem mem_all (k : Keyword) : k ∈ all := by
  cases k <;> decide

theorem text_of_ofWord? {w : String} {k : Keyword} (h : ofWord? w = some k) : k.text = w := by
  simpa using List.find?_some h

theorem ofWord?_text (k : Keyword) : ofWord? k.text = some k := by
  cases k <;> decide

end Keyword

/-- What a token is. Literals carry their value. -/
inductive Kind
  | symbol (s : Symbol)
  | keyword (k : Keyword)
  | identifier
  | string (s : String)
  | number (x : Float)
  | eof
deriving DecidableEq

namespace Kind

def isSymbol (s : Symbol) : Kind → Bool
  | symbol s' => s = s'
  | _ => false

def isKeyword (k : Keyword) : Kind → Bool
  | keyword k' => k = k'
  | _ => false

def isIdentifier : Kind → Bool
  | identifier => true
  | _ => false

def isEof : Kind → Bool
  | eof => true
  | _ => false

theorem eq_eof_of_isEof {k : Kind} (h : k.isEof) : k = eof := by
  cases k <;> simp_all [isEof]

/-- The name of the kind in listings, without the value. -/
def label : Kind → String
  | symbol s => s.label
  | keyword k => k.label
  | identifier => "IDENTIFIER"
  | string _ => "STRING"
  | number _ => "NUMBER"
  | eof => "EOF"

end Kind

/-- A token with the text it was read from and the line on which that text ends. -/
structure Token where
  kind : Kind
  lexeme : String
  line : Nat
deriving DecidableEq

/-- A name that stands in no source text, with the line it is attributed to. -/
def Token.name (lexeme : String) (line : Nat) : Token :=
  ⟨.identifier, lexeme, line⟩

end Lox
