import Mathlib.Data.List.TakeWhile
import Mathlib.Tactic.Common
import Lox.Proofs.Tree.Relabeling
import Lox.Tree.Written

/-!
The form of written expressions.

A written expression is a word, or parentheses around a word and what is written behind it, with a
blank before each part. No word holds a blank or a parenthesis, so such a text is put together in
one way only, whatever the words are and however many parts there are.
-/

namespace Lox

/-- The characters that end a word. -/
def isDelimiter (c : Char) : Bool := c = ' ' || c = '(' || c = ')'

/-- A text that is not empty and in which nothing ends a word. -/
def IsWord (w : List Char) : Prop := w ≠ [] ∧ ∀ c ∈ w, isDelimiter c = false

instance (w : List Char) : Decidable (IsWord w) :=
  decidable_of_iff (w ≠ [] ∧ w.all (isDelimiter · = false)) (by simp [IsWord])

/-- A word, or a word at the head of some parts. -/
inductive Outline
  | word (w : List Char)
  | form (head : List Char) (parts : List Outline)

namespace Outline

mutual

def text : Outline → List Char
  | word w => w
  | form head parts => '(' :: (head ++ (textEach parts ++ [')']))

/-- The parts in order, each after a blank. -/
def textEach : List Outline → List Char
  | [] => []
  | s :: ss => ' ' :: (s.text ++ textEach ss)

end

mutual

/-- What stands for words are words. -/
def Worded : Outline → Prop
  | word w => IsWord w
  | form head parts => IsWord head ∧ WordedEach parts

def WordedEach : List Outline → Prop
  | [] => True
  | s :: ss => s.Worded ∧ WordedEach ss

end

/-- A word is over before the text. -/
def Ends (r : List Char) : Prop := ∀ c ∈ r.head?, isDelimiter c

lemma ends_nil : Ends [] := nofun

lemma ends_cons {c : Char} {r : List Char} (hc : isDelimiter c) : Ends (c :: r) := by
  rintro _ ⟨⟩
  exact hc

/-- After the head or after a part there is a blank or the closing parenthesis. -/
lemma ends_textEach (ss : List Outline) (r : List Char) : Ends (textEach ss ++ ')' :: r) := by
  cases ss with
  | nil => exact ends_cons (by decide)
  | cons s ss => exact ends_cons (by decide)

lemma word_unique {w w' r r' : List Char} (hw : IsWord w) (hw' : IsWord w') (hr : Ends r)
    (hr' : Ends r') (h : w ++ r = w' ++ r') : w = w' ∧ r = r' := by
  have front : ∀ {w r : List Char}, IsWord w → Ends r →
      (w ++ r).takeWhile (!isDelimiter ·) = w := by
    intro w r hw hr
    rw [List.takeWhile_append_of_pos fun c hc => by rw [hw.2 c hc]; rfl]
    have hnone : r.takeWhile (!isDelimiter ·) = [] := by
      cases r with
      | nil => rfl
      | cons c r => exact List.takeWhile_cons_of_neg (by rw [hr c rfl]; exact Bool.false_ne_true)
    rw [hnone, List.append_nil]
  have heq : w = w' := by rw [← front hw hr, h, front hw' hr']
  subst heq
  exact ⟨rfl, List.append_cancel_left h⟩

lemma word_ne_form {w r r' : List Char} (hw : IsWord w) : w ++ r ≠ '(' :: r' := by
  obtain ⟨hne, hword⟩ := hw
  cases w with
  | nil => exact absurd rfl hne
  | cons c w =>
    intro h
    obtain ⟨rfl, -⟩ := List.cons.inj h
    exact absurd (hword _ (List.mem_cons_self ..)) (by decide)

lemma text_form_append (head : List Char) (parts : List Outline) (r : List Char) :
    (form head parts).text ++ r = '(' :: (head ++ (textEach parts ++ ')' :: r)) := by
  simp [text]

lemma textEach_cons_append (s : Outline) (ss : List Outline) (r : List Char) :
    textEach (s :: ss) ++ r = ' ' :: (s.text ++ (textEach ss ++ r)) := by
  simp [textEach]

mutual

/-- Text of words and parentheses is that of one outline. -/
theorem text_unique : ∀ {s s' : Outline} {r r' : List Char}, s.Worded → s'.Worded → Ends r →
    Ends r' → s.text ++ r = s'.text ++ r' → s = s' ∧ r = r'
  | word w, word w', r, r', hs, hs', hr, hr', h => by
    obtain ⟨rfl, hrest⟩ := word_unique hs hs' hr hr' h
    exact ⟨rfl, hrest⟩
  | word w, form head parts, r, r', hs, _, _, _, h => by
    rw [text_form_append] at h
    exact absurd h (word_ne_form hs)
  | form head parts, word w, r, r', _, hs', _, _, h => by
    rw [text_form_append] at h
    exact absurd h.symm (word_ne_form hs')
  | form head parts, form head' parts', r, r', hs, hs', _, _, h => by
    rw [text_form_append, text_form_append] at h
    obtain ⟨rfl, hparts⟩ := word_unique hs.1 hs'.1 (ends_textEach parts r)
      (ends_textEach parts' r') (List.cons.inj h).2
    obtain ⟨rfl, hrest⟩ := textEach_unique hs.2 hs'.2 hparts
    exact ⟨rfl, hrest⟩

lemma textEach_unique : ∀ {ss ss' : List Outline} {r r' : List Char}, WordedEach ss →
    WordedEach ss' → textEach ss ++ ')' :: r = textEach ss' ++ ')' :: r' → ss = ss' ∧ r = r'
  | [], [], r, r', _, _, h => ⟨rfl, (List.cons.inj h).2⟩
  | [], s :: ss, r, r', _, _, h => by
    rw [textEach_cons_append] at h
    exact absurd (List.cons.inj h).1 (by decide)
  | s :: ss, [], r, r', _, _, h => by
    rw [textEach_cons_append] at h
    exact absurd (List.cons.inj h).1 (by decide)
  | s :: ss, s' :: ss', r, r', hs, hs', h => by
    rw [textEach_cons_append, textEach_cons_append] at h
    obtain ⟨rfl, hparts⟩ := text_unique hs.1 hs'.1 (ends_textEach ss r) (ends_textEach ss' r')
      (List.cons.inj h).2
    obtain ⟨rfl, hrest⟩ := textEach_unique hs.2 hs'.2 hparts
    exact ⟨rfl, hrest⟩

end

lemma text_injective {s s' : Outline} (hs : s.Worded) (hs' : s'.Worded) (h : s.text = s'.text) :
    s = s' :=
  (text_unique hs hs' ends_nil ends_nil (by rw [List.append_nil, List.append_nil, h])).1

end Outline

namespace Expr

mutual

/-- The outline of the written expression. -/
def outline : Expr → Outline
  | literal l => .word (literalText l).toList
  | group e => .form "group".toList [e.outline]
  | unary op e => .form op.lexeme.toList [e.outline]
  | binary l op r => .form op.lexeme.toList [l.outline, r.outline]
  | logical l op r => .form op.lexeme.toList [l.outline, r.outline]
  | conditional c t e => .form "?:".toList [c.outline, t.outline, e.outline]
  | reference _ name => .word name.lexeme.toList
  | assign _ name value => .form "=".toList [.word name.lexeme.toList, value.outline]
  | call callee _ arguments => .form "call".toList (callee.outline :: outlines arguments)
  | property object name => .form ".".toList [object.outline, .word name.lexeme.toList]
  | setProperty object name value =>
    .form ".=".toList [object.outline, .word name.lexeme.toList, value.outline]
  | this .. => .word "this".toList

def outlines : List Expr → List Outline
  | [] => []
  | e :: es => e.outline :: outlines es

end

mutual

lemma toList_written : ∀ e : Expr, e.written.toList = e.outline.text
  | literal l => rfl
  | group e => by simp [written, outline, Outline.text, Outline.textEach, toList_written e]
  | unary op e => by simp [written, outline, Outline.text, Outline.textEach, toList_written e]
  | binary l op r => by
    simp [written, outline, Outline.text, Outline.textEach, toList_written l, toList_written r]
  | logical l op r => by
    simp [written, outline, Outline.text, Outline.textEach, toList_written l, toList_written r]
  | conditional c t e => by
    simp [written, outline, Outline.text, Outline.textEach, toList_written c, toList_written t,
      toList_written e]
  | reference _ name => rfl
  | assign _ name value => by
    simp [written, outline, Outline.text, Outline.textEach, toList_written value]
  | call callee _ arguments => by
    simp [written, outline, Outline.text, Outline.textEach, toList_written callee,
      toList_writtenEach arguments]
  | property object name => by
    simp [written, outline, Outline.text, Outline.textEach, toList_written object]
  | setProperty object name value => by
    simp [written, outline, Outline.text, Outline.textEach, toList_written object,
      toList_written value]
  | this .. => rfl

lemma toList_writtenEach : ∀ es : List Expr,
    (writtenEach es).toList = Outline.textEach (outlines es)
  | [] => rfl
  | e :: es => by
    simp [writtenEach, outlines, Outline.textEach, toList_written e, toList_writtenEach es]

end

variable (r : Relabeling)

mutual

/-- Numbers and lines are not written. -/
lemma outline_relabel : ∀ e : Expr, (e.relabel r).outline = e.outline
  | literal _ => rfl
  | group e => by rw [relabel, outline, outline_relabel e, outline]
  | unary op e => by rw [relabel, outline, outline_relabel e, outline, Token.lexeme_relabel]
  | binary l op e => by
    rw [relabel, outline, outline_relabel l, outline_relabel e, outline, Token.lexeme_relabel]
  | logical l op e => by
    rw [relabel, outline, outline_relabel l, outline_relabel e, outline, Token.lexeme_relabel]
  | conditional c t e => by
    rw [relabel, outline, outline_relabel c, outline_relabel t, outline_relabel e, outline]
  | reference .. => rfl
  | assign _ name value => by
    rw [relabel, outline, outline_relabel value, outline, Token.lexeme_relabel]
  | call callee _ arguments => by
    rw [relabel, outline, outline_relabel callee, outlines_relabelEach arguments, outline]
  | property object name => by
    rw [relabel, outline, outline_relabel object, outline, Token.lexeme_relabel]
  | setProperty object name value => by
    rw [relabel, outline, outline_relabel object, outline_relabel value, outline,
      Token.lexeme_relabel]
  | this .. => rfl

lemma outlines_relabelEach : ∀ es : List Expr, outlines (relabelEach r es) = outlines es
  | [] => rfl
  | e :: es => by rw [relabelEach, outlines, outline_relabel e, outlines_relabelEach es, outlines]

end

lemma written_relabel (e : Expr) : (e.relabel r).written = e.written :=
  String.toList_injective (by rw [toList_written, toList_written, outline_relabel])

end Expr

end Lox
