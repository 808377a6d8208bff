import Lox.Token

/-!
Source text as a sequence of segments: blanks, comments, tokens and faults.

`first` takes the longest segment at the front of a non-empty text and leaves the rest, and
`segments` repeats this. Nothing is dropped: the texts of the segments, joined, are the source.
-/

namespace Lox.Source

/-- Why a stretch of source is no token. -/
inductive Fault
  | unexpectedCharacter
  | unterminatedString
  | unterminatedComment
deriving DecidableEq

def Fault.message : Fault → String
  | unexpectedCharacter => "Unexpected character."
  | unterminatedString => "Unterminated string."
  | unterminatedComment => "Unterminated block comment."

/-- What a stretch of source is for. -/
inductive Role
  | blank
  | comment
  | token (k : Kind)
  | fault (f : Fault)
deriving DecidableEq

structure Segment where
  text : List Char
  role : Role
deriving DecidableEq

/-! ### Character classes -/

def isBlank (c : Char) : Bool := c = ' ' || c = '\r' || c = '\t' || c = '\n'

def isDigit (c : Char) : Bool := '0' ≤ c && c ≤ '9'

def isWordStart (c : Char) : Bool :=
  ('a' ≤ c && c ≤ 'z') || ('A' ≤ c && c ≤ 'Z') || c = '_'

def isWordPart (c : Char) : Bool := isWordStart c || isDigit c

/-! ### Literals and words -/

/-- The number written as digits with `places` of them after the point, rounded to the nearest
double. -/
def numberOfDigits (digits : List Char) (places : Nat) : Float :=
  Float.ofScientific (digits.foldl (fun n c => 10 * n + (c.toNat - '0'.toNat)) 0) true places

/-- Digits, and a point with more digits if at least one digit follows the point. -/
def number (cs : List Char) : Segment × List Char :=
  let whole := cs.takeWhile isDigit
  let plain : Segment := ⟨whole, .token (.number (numberOfDigits whole 0))⟩
  match cs.dropWhile isDigit with
  | '.' :: d :: r =>
    if isDigit d then
      let places := (d :: r).takeWhile isDigit
      let value := numberOfDigits (whole ++ places) places.length
      (⟨whole ++ '.' :: places, .token (.number value)⟩, (d :: r).dropWhile isDigit)
    else (plain, '.' :: d :: r)
  | rest => (plain, rest)

/-- The kind of a word: reserved, or else a name. -/
def wordKind (w : List Char) : Kind :=
  match Keyword.ofWord? (String.ofList w) with
  | some k => .keyword k
  | none => .identifier

/-- A reserved word or a name. -/
def word (cs : List Char) : Segment × List Char :=
  let w := cs.takeWhile isWordPart
  (⟨w, .token (wordKind w)⟩, cs.dropWhile isWordPart)

/-- A string, its opening quote having been read. It may span lines and knows no escapes. -/
def string (cs : List Char) : Segment × List Char :=
  let body := cs.takeWhile (· ≠ '\"')
  match cs.dropWhile (· ≠ '\"') with
  | [] => (⟨'\"' :: body, .fault .unterminatedString⟩, [])
  | q :: rest => (⟨'\"' :: (body ++ [q]), .token (.string (String.ofList body))⟩, rest)

/-! ### Comments -/

/-- The length of a block comment from here on, `depth` openers beyond the outermost being open
and `seen` characters having been read. Openers nest; `none` if the outermost is never closed. -/
def commentLength? (depth seen : Nat) : List Char → Option Nat
  | [] => none
  | '/' :: '*' :: r => commentLength? (depth + 1) (seen + 2) r
  | '*' :: '/' :: r =>
    match depth with
    | 0 => some (seen + 2)
    | d + 1 => commentLength? d (seen + 2) r
  | _ :: r => commentLength? depth (seen + 1) r

/-- A block comment, its opener having been read. -/
def blockComment (cs : List Char) : Segment × List Char :=
  match commentLength? 0 0 cs with
  | some n => (⟨'/' :: '*' :: cs.take n, .comment⟩, cs.drop n)
  | none => (⟨'/' :: '*' :: cs, .fault .unterminatedComment⟩, [])

/-- A comment to the end of the line, its first slash having been read. The line break is not
part of it. -/
def lineComment (cs : List Char) : Segment × List Char :=
  (⟨'/' :: cs.takeWhile (· ≠ '\n'), .comment⟩, cs.dropWhile (· ≠ '\n'))

/-! ### Operators -/

/-- A symbol of one character, or else a fault. -/
def single (c : Char) : Segment :=
  match Symbol.ofChar? c with
  | some s => ⟨[c], .token (.symbol s)⟩
  | none => ⟨[c], .fault .unexpectedCharacter⟩

/-- The longest symbol at the front of `c :: cs`, or else a fault. -/
def symbol (c : Char) (cs : List Char) : Segment × List Char :=
  match cs with
  | [] => (single c, [])
  | d :: r =>
    match Symbol.ofPair? c d with
    | some s => (⟨[c, d], .token (.symbol s)⟩, r)
    | none => (single c, cs)

/-! ### Decomposition -/

/-- The segment at the front of `c :: cs`, and what follows it. -/
def first (c : Char) (cs : List Char) : Segment × List Char :=
  if isBlank c then (⟨[c], .blank⟩, cs)
  else if isDigit c then number (c :: cs)
  else if isWordStart c then word (c :: cs)
  else if c = '\"' then string cs
  else if c = '/' then
    match cs with
    | '/' :: _ => lineComment cs
    | '*' :: r => blockComment r
    | _ => symbol c cs
  else symbol c cs

/-- The text that a segment and the rest stand for. -/
def joined (p : Segment × List Char) : List Char := p.1.text ++ p.2

theorem joined_number (cs : List Char) : joined (number cs) = cs := by
  have h := cs.takeWhile_append_dropWhile (p := isDigit)
  unfold number joined
  generalize cs.dropWhile isDigit = rest at h ⊢
  dsimp only
  split
  · split
    · simpa using h
    · simpa using h
  · simpa using h

theorem joined_word (cs : List Char) : joined (word cs) = cs := by
  simp [word, joined]

theorem joined_string (cs : List Char) : joined (string cs) = '\"' :: cs := by
  have h := cs.takeWhile_append_dropWhile (p := (· ≠ '\"'))
  unfold string joined
  generalize cs.dropWhile (· ≠ '\"') = rest at h ⊢
  dsimp only
  split <;> simpa using h

theorem joined_lineComment (cs : List Char) : joined (lineComment cs) = '/' :: cs := by
  simp [lineComment, joined]

theorem joined_blockComment (cs : List Char) : joined (blockComment cs) = '/' :: '*' :: cs := by
  unfold blockComment joined
  split <;> simp

theorem single_text (c : Char) : (single c).text = [c] := by
  unfold single; split <;> rfl

theorem joined_symbol (c : Char) (cs : List Char) : joined (symbol c cs) = c :: cs := by
  unfold symbol joined
  split
  · simp [single_text]
  · split <;> simp [single_text]

/-- Nothing is dropped at the front. -/
theorem joined_first (c : Char) (cs : List Char) : joined (first c cs) = c :: cs := by
  unfold first
  split
  · rfl
  · split
    · exact joined_number _
    · split
      · exact joined_word _
      · split
        · rename_i h; subst h; exact joined_string _
        · split
          · rename_i h; subst h
            split
            · exact joined_lineComment _
            · exact joined_blockComment _
            · exact joined_symbol _ _
          · exact joined_symbol _ _

theorem number_text_ne_nil (c : Char) (cs : List Char) (h : isDigit c) :
    (number (c :: cs)).1.text ≠ [] := by
  unfold number
  dsimp only
  split
  · split <;> simp [h]
  · simp [h]

/-- A segment has at least one character. -/
theorem first_text_ne_nil (c : Char) (cs : List Char) : (first c cs).1.text ≠ [] := by
  unfold first
  split
  · simp
  · split
    · rename_i h; exact number_text_ne_nil c cs h
    · split
      · rename_i h; simp [word, isWordPart, h]
      · split
        · unfold string; dsimp only; split <;> simp
        · have hs : (symbol c cs).1.text ≠ [] := by
            unfold symbol
            split
            · simp [single_text]
            · split <;> simp [single_text]
          split
          · split
            · simp [lineComment]
            · unfold blockComment; split <;> simp
            · exact hs
          · exact hs

theorem first_rest_length (c : Char) (cs : List Char) : (first c cs).2.length ≤ cs.length := by
  have h := congrArg List.length (joined_first c cs)
  have h0 := List.length_pos_iff.2 (first_text_ne_nil c cs)
  simp only [joined, List.length_append, List.length_cons] at h
  omega

/-- The segments of a text, after those already found, the last of which comes first. -/
def segmentsAfter (found : List Segment) : List Char → List Segment
  | [] => found.reverse
  | c :: cs => segmentsAfter ((first c cs).1 :: found) (first c cs).2
termination_by cs => cs.length
decreasing_by exact Nat.lt_succ_of_le (first_rest_length c cs)

/-- The segments of a text from front to back. -/
def segments (cs : List Char) : List Segment := segmentsAfter [] cs

theorem segmentsAfter_append (found before : List Segment) (cs : List Char) :
    segmentsAfter (found ++ before) cs = before.reverse ++ segmentsAfter found cs := by
  induction found, cs using segmentsAfter.induct with
  | case1 found => simp [segmentsAfter]
  | case2 found c cs ih => rw [segmentsAfter, ← List.cons_append, ih, segmentsAfter]

@[simp] theorem segments_nil : segments [] = [] := by
  simp [segments, segmentsAfter]

theorem segments_cons (c : Char) (cs : List Char) :
    segments (c :: cs) = (first c cs).1 :: segments (first c cs).2 := by
  have h := segmentsAfter_append [] [(first c cs).1] (first c cs).2
  simpa [segments, segmentsAfter] using h

end Lox.Source
