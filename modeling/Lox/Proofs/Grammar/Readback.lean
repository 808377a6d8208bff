import Lox.Proofs.Grammar.SingleExpression
import Lox.Proofs.Number.Decimals
import Lox.Proofs.Number.Numerals
import Lox.Proofs.Source.Spacing
import Lox.Proofs.Tree.Outline

/-!
Written expressions read back.

A written expression has one outline, and an outline has one tree: its words are tokens, and its
heads say which nodes they belong to. So expressions from sources are written alike only if they
are the same but for numbers and lines. This is shown of expressions without strings, in which
anything may stand, and without infinite numbers, which are written as names are.
-/

namespace Lox

namespace Relabeling

/-- Numbers and lines are forgotten. -/
def bare : Relabeling := ⟨fun _ => 0, fun _ => 0⟩

end Relabeling

namespace Expr

mutual

/-- The literals of an expression, from left to right. -/
def literals : Expr → List Literal
  | literal l => [l]
  | group e => e.literals
  | unary _ e => e.literals
  | binary l _ r => l.literals ++ r.literals
  | logical l _ r => l.literals ++ r.literals
  | conditional c t e => c.literals ++ (t.literals ++ e.literals)
  | reference .. => []
  | assign _ _ value => value.literals
  | call callee _ arguments => callee.literals ++ literalsOf arguments
  | property object _ => object.literals
  | setProperty object _ value => object.literals ++ value.literals
  | this .. => []

def literalsOf : List Expr → List Literal
  | [] => []
  | e :: es => e.literals ++ literalsOf es

end

end Expr

/-- Neither a string nor an infinite number. -/
def Literal.Plain : Literal → Prop
  | .string _ => False
  | .number x => x.isInf = false
  | _ => True

/-- Neither a string nor a number that is negative or not finite. -/
def Literal.Unsigned : Literal → Prop
  | .string _ => False
  | .number x => ∃ m q, Number.Binary.ofFloat x = .finite false m q
  | _ => True

/-- The token is one of a text. -/
def Token.Scanned (t : Token) : Prop := Source.Lexeme t.lexeme.toList t.kind

/-- The mark is that of a token of a text. -/
def Mark.Scanned (m : Mark) : Prop := ∃ t, m.Fits t ∧ t.Scanned

/-! ### Words -/

/-- Whether the tokens of the kind are words. -/
def Kind.isWord : Kind → Bool
  | .string _ | .symbol .leftParen | .symbol .rightParen => false
  | _ => true

namespace Source

variable {w : List Char} {k : Kind}

lemma Lexeme.exists_digits {x : Float} (h : Lexeme w (.number x)) :
    ∃ ds places, x = numberOfDigits ds places := by
  cases h with
  | whole => exact ⟨_, _, rfl⟩
  | fraction => exact ⟨_, _, rfl⟩

/-- The text of a symbol or a reserved word is the one that its kind gives. -/
lemma Lexeme.eq_symbol {s : Symbol} (h : Lexeme w (.symbol s)) : w = s.text.toList := by
  cases h
  rfl

lemma Lexeme.eq_keyword {k : Keyword} (h : Lexeme w (.keyword k)) : w = k.text.toList := by
  cases h
  rfl

/-- A number that is written with a point is the text of a token. -/
lemma lexeme_of_denotes {r : ℚ} (h : Number.Denotes w r) : ∃ x, Lexeme w (.number x) := by
  cases h with
  | point hds hds' hes hes' => exact ⟨_, .fraction hds hds' hes hes'⟩

lemma not_isDelimiter_of_isWordPart {c : Char} (h : isWordPart c) : isDelimiter c = false := by
  by_contra hc
  simp only [isDelimiter, Bool.not_eq_false, Bool.or_eq_true, decide_eq_true_eq] at hc
  rcases hc with (rfl | rfl) | rfl <;> exact absurd h (by decide)

/-- All tokens are words but for strings and parentheses. -/
lemma Lexeme.isWord (h : Lexeme w k) (hk : k.isWord) : IsWord w := by
  have digits : ∀ {ds : List Char}, (∀ d ∈ ds, isDigit d) → ∀ d ∈ ds, isDelimiter d = false :=
    fun hds d hd => not_isDelimiter_of_isWordPart (by rw [isWordPart, hds d hd, Bool.or_true])
  have hne := h.ne_nil
  cases h with
  | symbol s => cases s <;> first | decide | exact absurd hk (by decide)
  | keyword k => cases k <;> decide
  | name hstart hpart =>
    refine ⟨hne, List.forall_mem_cons.mpr ⟨not_isDelimiter_of_isWordPart ?_, fun d hd =>
      not_isDelimiter_of_isWordPart (hpart d hd)⟩⟩
    rw [isWordPart, hstart, Bool.true_or]
  | whole _ hds => exact ⟨hne, digits hds⟩
  | fraction _ hds _ hes =>
    refine ⟨hne, List.forall_mem_append.mpr ⟨digits hds, ?_⟩⟩
    exact List.forall_mem_cons.mpr ⟨by decide, digits hes⟩
  | string => cases hk

end Source

/-! ### Tokens and literals of a text -/

lemma Mark.Scanned.token {t : Token} (h : (Mark.token t).Scanned) : t.Scanned := by
  obtain ⟨_, rfl, h⟩ := h
  exact h

namespace Token.Scanned

variable {t : Token}

lemma symbol {s : Symbol} (h : t.Scanned) (hk : t.kind = .symbol s) :
    t.relabel .bare = ⟨.symbol s, s.text, 0⟩ := by
  unfold Scanned at h
  rw [hk] at h
  rw [← String.toList_injective h.eq_symbol, ← hk]
  rfl

lemma keyword {k : Keyword} (h : t.Scanned) (hk : t.kind = .keyword k) :
    t.relabel .bare = ⟨.keyword k, k.text, 0⟩ := by
  unfold Scanned at h
  rw [hk] at h
  rw [← String.toList_injective h.eq_keyword, ← hk]
  rfl

end Token.Scanned

lemma Expr.numberFormat_plain : numberFormat.Plain :=
  ⟨⟨1024, le_rfl, by rw [numberFormat]⟩, rfl, rfl⟩

/-- Numerals have no sign. -/
lemma Mark.Scanned.unsigned {x : Literal} (h : (Mark.kind x.kind).Scanned) (hx : x.Plain) :
    x.Unsigned := by
  obtain ⟨t, ht, hscanned⟩ := h
  replace ht : t.kind = x.kind := ht
  cases x with
  | string => exact hx
  | boolean => trivial
  | nil => trivial
  | number x =>
    unfold Token.Scanned at hscanned
    rw [ht] at hscanned
    obtain ⟨ds, places, rfl⟩ := hscanned.exists_digits
    exact Number.ofFloat_numberOfDigits hx

namespace Literal.Unsigned

/-- A number is written as a numeral is. -/
lemma lexeme {x : Float} (h : (Literal.number x).Unsigned) :
    ∃ y, Source.Lexeme (Expr.numberFormat.write x).toList (.number y) := by
  obtain ⟨m, q, hx⟩ := h
  obtain ⟨r, hr, -⟩ := Expr.numberFormat_plain.denotes hx
  exact Source.lexeme_of_denotes hr

lemma isWord {x : Literal} (h : x.Unsigned) : IsWord (Expr.literalText x).toList := by
  rcases x with x | s | (_ | _) | _
  · obtain ⟨y, hy⟩ := lexeme h
    exact hy.isWord rfl
  · exact h.elim
  · exact (by decide : IsWord "false".toList)
  · exact (by decide : IsWord "true".toList)
  · exact (by decide : IsWord "nil".toList)

end Literal.Unsigned

/-! ### Trees of outlines -/

namespace Outline

/-- The kind of the token that a word is. -/
def kindOf : List Char → Kind
  | [] => .eof
  | c :: cs =>
    match (Source.first c cs).1.role with
    | .token k => k
    | _ => .eof

/-- The token that a word is. -/
def tokenOf (w : List Char) : Token := ⟨kindOf w, String.ofList w, 0⟩

lemma kindOf_eq {w : List Char} {k : Kind} (h : Source.Lexeme w k) : kindOf w = k := by
  obtain ⟨c, cs, rfl⟩ := List.exists_cons_of_ne_nil h.ne_nil
  have hstands : Source.Stands (.token k) (c :: cs) [] := h.stands nofun
  have hfirst : Source.first c cs = (⟨c :: cs, .token k⟩, []) := by
    cases hstands with
    | token _ hcomment hlongest =>
      exact Source.first_token h hcomment hlongest (List.append_nil _)
  rw [kindOf, hfirst]

lemma tokenOf_eq {t : Token} (h : Source.Lexeme t.lexeme.toList t.kind) :
    tokenOf t.lexeme.toList = t.relabel .bare := by
  rw [tokenOf, kindOf_eq h, String.ofList_toList]
  rfl

variable (read : List Char → Float)

/-- The expression that a word is, if numbers are read by the given reader. -/
def wordTree (w : List Char) : Expr :=
  match kindOf w with
  | .number _ => .literal (.number (read w))
  | .keyword .kwTrue => .literal (.boolean true)
  | .keyword .kwFalse => .literal (.boolean false)
  | .keyword .kwNil => .literal .nil
  | .keyword .kwThis => .this 0 (tokenOf w)
  | _ => .reference 0 (tokenOf w)

/-- The name that is a part, where a part is a name. -/
def name : Outline → Token
  | word w => tokenOf w
  | form head _ => tokenOf head

/-- The expression with the head, from the parts and the expressions that the parts are. -/
def formTree (head : Token) (parts : List Outline) (trees : List Expr) : Expr :=
  match head.lexeme, parts, trees with
  | "group", _, [e] => .group e
  | "?:", _, [c, t, e] => .conditional c t e
  | "=", [n, _], [_, value] => .assign 0 n.name value
  | ".", [_, n], [object, _] => .property object n.name
  | ".=", [_, n, _], [object, _, value] => .setProperty object n.name value
  | "call", _, callee :: arguments => .call callee ⟨.symbol .rightParen, ")", 0⟩ arguments
  | _, _, [e] => .unary head e
  | _, _, [l, r] =>
    match head.kind with
    | .keyword _ => .logical l head r
    | _ => .binary l head r
  | _, _, _ => default

mutual

/-- The expression of an outline. -/
def tree : Outline → Expr
  | word w => wordTree read w
  | form head parts => formTree (tokenOf head) parts (trees parts)

def trees : List Outline → List Expr
  | [] => []
  | s :: ss => s.tree :: trees ss

end

end Outline

namespace Grammar

/-! ### Legible expressions -/

/-- An expression whose tokens were read from a text, each of a kind that its node admits. -/
inductive Legible : Expr → Prop
  | literal {x} : x.Unsigned → Legible (.literal x)
  | group {e} : Legible e → Legible (.group e)
  | unary {op e} : op.kind = .symbol .bang ∨ op.kind = .symbol .minus → op.Scanned → Legible e →
      Legible (.unary op e)
  | binary {level left op right} : binaryLevel? op.kind = some level → op.Scanned → Legible left →
      Legible right → Legible (.binary left op right)
  | logical {level left op right} : logicalLevel? op.kind = some level → op.Scanned → Legible left →
      Legible right → Legible (.logical left op right)
  | conditional {c t e} : Legible c → Legible t → Legible e → Legible (.conditional c t e)
  | reference {id name} : name.kind = .identifier → name.Scanned → Legible (.reference id name)
  | assign {id name value} : name.kind = .identifier → name.Scanned → Legible value →
      Legible (.assign id name value)
  | call {callee paren arguments} : Legible callee → paren.kind = .symbol .rightParen →
      paren.Scanned → (∀ a ∈ arguments, Legible a) → Legible (.call callee paren arguments)
  | property {object name} : Legible object → name.kind = .identifier → name.Scanned →
      Legible (.property object name)
  | setProperty {object name value} : Legible object → name.kind = .identifier → name.Scanned →
      Legible value → Legible (.setProperty object name value)
  | this {id keyword} : keyword.kind = .keyword .kwThis → keyword.Scanned →
      Legible (.this id keyword)

lemma scanned_arguments {es : List Expr} (h : ∀ m ∈ Expr.yieldEach es, m.Scanned) :
    ∀ e ∈ es, ∀ m ∈ e.yield, m.Scanned := by
  induction es with
  | nil => nofun
  | cons e es ih =>
    cases es with
    | nil =>
      intro a ha
      rw [List.mem_singleton.mp ha]
      exact h
    | cons e' es =>
      rw [Expr.yieldEach] at h
      obtain ⟨he, hes⟩ := List.forall_mem_append.mp h
      exact List.forall_mem_cons.mpr ⟨he, ih (List.forall_mem_cons.mp hes).2⟩

lemma plain_arguments {es : List Expr} (h : ∀ x ∈ Expr.literalsOf es, x.Plain) :
    ∀ e ∈ es, ∀ x ∈ e.literals, x.Plain := by
  induction es with
  | nil => nofun
  | cons e es ih =>
    rw [Expr.literalsOf] at h
    obtain ⟨he, hes⟩ := List.forall_mem_append.mp h
    exact List.forall_mem_cons.mpr ⟨he, ih hes⟩

/-- Expressions of the grammar are legible if their tokens were read from a text. -/
lemma At.legible {l : Level} {e : Expr} (h : At l e) (hmarks : ∀ m ∈ e.yield, m.Scanned)
    (hplain : ∀ x ∈ e.literals, x.Plain) : Legible e := by
  induction h with
  | tighter _ _ ih => exact ih hmarks hplain
  | binary hop _ _ _ ihl ihr =>
    obtain ⟨hl, hrest⟩ := List.forall_mem_append.mp hmarks
    obtain ⟨ho, hr⟩ := List.forall_mem_cons.mp hrest
    obtain ⟨hpl, hpr⟩ := List.forall_mem_append.mp hplain
    exact .binary hop ho.token (ihl hl hpl) (ihr hr hpr)
  | logical hop _ _ _ ihl ihr =>
    obtain ⟨hl, hrest⟩ := List.forall_mem_append.mp hmarks
    obtain ⟨ho, hr⟩ := List.forall_mem_cons.mp hrest
    obtain ⟨hpl, hpr⟩ := List.forall_mem_append.mp hplain
    exact .logical hop ho.token (ihl hl hpl) (ihr hr hpr)
  | assign hname _ ih =>
    obtain ⟨hn, hrest⟩ := List.forall_mem_cons.mp hmarks
    exact .assign hname hn.token (ih (List.forall_mem_cons.mp hrest).2 hplain)
  | setProperty _ hname _ iho ihv =>
    obtain ⟨ho, hrest⟩ := List.forall_mem_append.mp hmarks
    obtain ⟨hn, hrest⟩ := List.forall_mem_cons.mp (List.forall_mem_cons.mp hrest).2
    obtain ⟨hpo, hpv⟩ := List.forall_mem_append.mp hplain
    exact .setProperty (iho ho hpo) hname hn.token (ihv (List.forall_mem_cons.mp hrest).2 hpv)
  | conditional _ _ _ ihc iht ihe =>
    obtain ⟨hc, hrest⟩ := List.forall_mem_append.mp hmarks
    obtain ⟨ht, hrest⟩ := List.forall_mem_append.mp (List.forall_mem_cons.mp hrest).2
    obtain ⟨hpc, hprest⟩ := List.forall_mem_append.mp hplain
    obtain ⟨hpt, hpe⟩ := List.forall_mem_append.mp hprest
    exact .conditional (ihc hc hpc) (iht ht hpt) (ihe (List.forall_mem_cons.mp hrest).2 hpe)
  | unary hop _ ih =>
    obtain ⟨ho, he⟩ := List.forall_mem_cons.mp hmarks
    exact .unary hop ho.token (ih he hplain)
  | call _ hparen _ ih ihs =>
    obtain ⟨hc, hrest⟩ := List.forall_mem_append.mp hmarks
    obtain ⟨ha, hp⟩ := List.forall_mem_append.mp (List.forall_mem_cons.mp hrest).2
    obtain ⟨hpc, hpa⟩ := List.forall_mem_append.mp hplain
    refine .call (ih hc hpc) hparen (List.forall_mem_singleton.mp hp).token fun a hmem => ?_
    exact ihs a hmem (scanned_arguments ha a hmem) (plain_arguments hpa a hmem)
  | property _ hname ih =>
    obtain ⟨ho, hrest⟩ := List.forall_mem_append.mp hmarks
    have hn := List.forall_mem_singleton.mp (List.forall_mem_cons.mp hrest).2
    exact .property (ih ho hplain) hname hn.token
  | group _ ih =>
    obtain ⟨he, -⟩ := List.forall_mem_append.mp (List.forall_mem_cons.mp hmarks).2
    exact .group (ih he hplain)
  | literal =>
    exact .literal ((List.forall_mem_singleton.mp hmarks).unsigned
      (List.forall_mem_singleton.mp hplain))
  | reference hname => exact .reference hname (List.forall_mem_singleton.mp hmarks).token
  | this hword => exact .this hword (List.forall_mem_singleton.mp hmarks).token

lemma worded_outlines {es : List Expr} (h : ∀ e ∈ es, e.outline.Worded) :
    Outline.WordedEach (Expr.outlines es) := by
  induction es with
  | nil => trivial
  | cons e es ih =>
    obtain ⟨he, hes⟩ := List.forall_mem_cons.mp h
    exact ⟨he, ih hes⟩

lemma isWord_of_binaryLevel? {l : Level} {k : Kind} (h : binaryLevel? k = some l) : k.isWord := by
  unfold binaryLevel? at h
  split at h <;> first | rfl | cases h

lemma isWord_of_logicalLevel? {l : Level} {k : Kind} (h : logicalLevel? k = some l) :
    k.isWord := by
  unfold logicalLevel? at h
  split at h <;> first | rfl | cases h

/-- The words in the outline of a legible expression are words. -/
lemma Legible.worded {e : Expr} (h : Legible e) : e.outline.Worded := by
  have name : ∀ {t : Token}, t.kind = .identifier → t.Scanned → IsWord t.lexeme.toList :=
    fun hk h => Source.Lexeme.isWord h (by rw [hk]; rfl)
  induction h with
  | literal hx => exact hx.isWord
  | group _ ih => exact ⟨by decide, ih, trivial⟩
  | unary hop hread _ ih =>
    refine ⟨Source.Lexeme.isWord hread ?_, ih, trivial⟩
    rcases hop with hop | hop <;> rw [hop] <;> rfl
  | binary hop hread _ _ ihl ihr =>
    exact ⟨Source.Lexeme.isWord hread (isWord_of_binaryLevel? hop), ihl, ihr, trivial⟩
  | logical hop hread _ _ ihl ihr =>
    exact ⟨Source.Lexeme.isWord hread (isWord_of_logicalLevel? hop), ihl, ihr, trivial⟩
  | conditional _ _ _ ihc iht ihe => exact ⟨by decide, ihc, iht, ihe, trivial⟩
  | reference hname hread => exact name hname hread
  | assign hname hread _ ih => exact ⟨by decide, name hname hread, ih, trivial⟩
  | call _ _ _ _ ih ihs => exact ⟨by decide, ih, worded_outlines ihs⟩
  | property _ hname hread ih => exact ⟨by decide, ih, name hname hread, trivial⟩
  | setProperty _ hname hread _ iho ihv =>
    exact ⟨by decide, iho, name hname hread, ihv, trivial⟩
  | this => exact (by decide : IsWord "this".toList)

/-! ### The tree of the outline of an expression -/

variable {read : List Char → Float}

/-- The reader undoes how finite numbers are written. -/
def Undoes (read : List Char → Float) : Prop :=
  ∀ x m q, Number.Binary.ofFloat x = .finite false m q →
    read (Expr.numberFormat.write x).toList = x

lemma wordTree_literal (hread : Undoes read) {x : Literal} (h : x.Unsigned) :
    Outline.wordTree read (Expr.literalText x).toList = .literal x := by
  have keyword : ∀ k : Keyword, Outline.kindOf k.text.toList = .keyword k :=
    fun k => Outline.kindOf_eq (.keyword k)
  rcases x with x | s | (_ | _) | _
  · obtain ⟨y, hy⟩ := h.lexeme
    obtain ⟨m, q, hx⟩ := h
    unfold Outline.wordTree
    rw [Expr.literalText, Outline.kindOf_eq hy, hread x m q hx]
  · exact h.elim
  · exact (by rw [Outline.wordTree, keyword .kwFalse] :
      Outline.wordTree read Keyword.kwFalse.text.toList = _)
  · exact (by rw [Outline.wordTree, keyword .kwTrue] :
      Outline.wordTree read Keyword.kwTrue.text.toList = _)
  · exact (by rw [Outline.wordTree, keyword .kwNil] :
      Outline.wordTree read Keyword.kwNil.text.toList = _)

lemma wordTree_name {t : Token} {id : NodeId} (hk : t.kind = .identifier) (h : t.Scanned) :
    Outline.wordTree read t.lexeme.toList = (Expr.reference id t).relabel .bare := by
  unfold Outline.wordTree
  rw [Outline.kindOf_eq h, hk, Outline.tokenOf_eq h]
  rfl

lemma formTree_unary {op : Token} (hop : op.kind = .symbol .bang ∨ op.kind = .symbol .minus)
    (h : op.Scanned) (s : Outline) (e : Expr) :
    Outline.formTree (op.relabel .bare) [s] [e] = .unary (op.relabel .bare) e := by
  rcases hop with hop | hop <;> rw [h.symbol hop] <;> rfl

lemma formTree_binary {l : Level} {op : Token} (hop : binaryLevel? op.kind = some l)
    (h : op.Scanned) (s s' : Outline) (e e' : Expr) :
    Outline.formTree (op.relabel .bare) [s, s'] [e, e'] = .binary e (op.relabel .bare) e' := by
  unfold binaryLevel? at hop
  split at hop <;> first | (rename_i hk; rw [h.symbol hk]; rfl) | exact nomatch hop

lemma formTree_logical {l : Level} {op : Token} (hop : logicalLevel? op.kind = some l)
    (h : op.Scanned) (s s' : Outline) (e e' : Expr) :
    Outline.formTree (op.relabel .bare) [s, s'] [e, e'] = .logical e (op.relabel .bare) e' := by
  unfold logicalLevel? at hop
  split at hop <;> first | (rename_i hk; rw [h.keyword hk]; rfl) | exact nomatch hop

lemma trees_outlines {es : List Expr} (h : ∀ e ∈ es, e.outline.tree read = e.relabel .bare) :
    Outline.trees read (Expr.outlines es) = es.map (Expr.relabel .bare) := by
  induction es with
  | nil => rfl
  | cons e es ih =>
    obtain ⟨he, hes⟩ := List.forall_mem_cons.mp h
    rw [Expr.outlines, Outline.trees, he, ih hes, List.map_cons]

/-- The tree of the outline of a legible expression is the expression, but for numbers and lines. -/
lemma Legible.tree_outline (hread : Undoes read) {e : Expr} (h : Legible e) :
    e.outline.tree read = e.relabel .bare := by
  induction h with
  | literal hx => exact wordTree_literal hread hx
  | group _ ih =>
    simp only [Expr.outline, Outline.tree, Outline.trees, ih]
    rfl
  | unary hop hop' _ ih =>
    simp only [Expr.outline, Outline.tree, Outline.trees, ih]
    rw [Outline.tokenOf_eq hop', formTree_unary hop hop', Expr.relabel]
  | binary hop hop' _ _ ihl ihr =>
    simp only [Expr.outline, Outline.tree, Outline.trees, ihl, ihr]
    rw [Outline.tokenOf_eq hop', formTree_binary hop hop', Expr.relabel]
  | logical hop hop' _ _ ihl ihr =>
    simp only [Expr.outline, Outline.tree, Outline.trees, ihl, ihr]
    rw [Outline.tokenOf_eq hop', formTree_logical hop hop', Expr.relabel]
  | conditional _ _ _ ihc iht ihe =>
    simp only [Expr.outline, Outline.tree, Outline.trees, ihc, iht, ihe]
    rfl
  | reference hname hname' => exact wordTree_name hname hname'
  | assign _ hname _ ih =>
    simp only [Expr.outline, Outline.tree, Outline.trees, ih]
    rw [Expr.relabel, ← Outline.tokenOf_eq hname]
    rfl
  | call _ hparen hparen' _ ih ihs =>
    rw [Expr.outline, Outline.tree, Outline.trees, ih, trees_outlines ihs, Expr.relabel,
      hparen'.symbol hparen, Expr.relabelEach_eq_map]
    rfl
  | property _ _ hname ih =>
    simp only [Expr.outline, Outline.tree, Outline.trees, ih]
    rw [Expr.relabel, ← Outline.tokenOf_eq hname]
    rfl
  | setProperty _ _ hname _ iho ihv =>
    simp only [Expr.outline, Outline.tree, Outline.trees, iho, ihv]
    rw [Expr.relabel, ← Outline.tokenOf_eq hname]
    rfl
  | this hword hread' =>
    have hthis : Outline.kindOf "this".toList = .keyword .kwThis :=
      Outline.kindOf_eq (.keyword .kwThis)
    rw [Expr.outline, Outline.tree, Outline.wordTree, hthis, Expr.relabel, hread'.keyword hword,
      Outline.tokenOf, hthis]
    rfl

/-! ### Written expressions -/

lemma scanned_of_singleExpression {source : String} {i : NodeId} {e : Expr}
    (h : (singleExpression (Source.tokens source) i).result = .ok e) :
    ∀ m ∈ e.yield, m.Scanned := by
  intro m hm
  obtain ⟨t, ht, hfits⟩ := (singleExpression_sound h).spelled.exists_token hm
  have hmem := (List.takeWhile_prefix _).subset ht
  refine ⟨t, hfits, Source.lexeme_of_mem_tokens hmem fun hend => ?_⟩
  have hnot := Source.forall_takeWhile (fun u : Token => !u.kind.isEof) _ t ht
  rw [hend] at hnot
  cases hnot

lemma legible_of_singleExpression {source : String} {i : NodeId} {e : Expr}
    (h : (singleExpression (Source.tokens source) i).result = .ok e)
    (hplain : ∀ x ∈ e.literals, x.Plain) : Legible e :=
  (singleExpression_sound h).level.legible (scanned_of_singleExpression h) hplain

/-- Legible expressions that are written alike are the same, but for numbers and lines. -/
lemma Legible.relabel_eq_of_written {e e' : Expr} (h : Legible e) (h' : Legible e')
    (hwritten : e.written = e'.written) : e.relabel .bare = e'.relabel .bare := by
  obtain ⟨read, hread⟩ := Expr.numberFormat_plain.exists_reader
  have htext : e.outline.text = e'.outline.text := by
    rw [← Expr.toList_written, ← Expr.toList_written, hwritten]
  have houtline := Outline.text_injective h.worded h'.worded htext
  rw [← h.tree_outline hread, ← h'.tree_outline hread, houtline]

/-- What is written of an expression identifies it. Two expressions that are read from sources, and
hold neither strings nor infinite numbers, are written alike if and only if they are the same, but
for the numbers of nodes and the lines of tokens. -/
theorem written_identifies_expression {source source' : String} {i i' : NodeId} {e e' : Expr}
    (h : (singleExpression (Source.tokens source) i).result = .ok e)
    (h' : (singleExpression (Source.tokens source') i').result = .ok e')
    (hplain : ∀ x ∈ e.literals, x.Plain) (hplain' : ∀ x ∈ e'.literals, x.Plain) :
    e.written = e'.written ↔ e.relabel .bare = e'.relabel .bare := by
  constructor
  · exact (legible_of_singleExpression h hplain).relabel_eq_of_written
      (legible_of_singleExpression h' hplain')
  · intro heq
    rw [← Expr.written_relabel .bare e, heq, Expr.written_relabel]

/-- Blanks, lines and the spelling of numerals are not written, nor are the numbers of nodes. -/
theorem written_identifies_expression_of_call :
    let source := "-a.b(1, c)"
    let source' := "- a . b(1.0,\n c)"
    ∃ e e', (singleExpression (Source.tokens source) 0).result = .ok e ∧
      (singleExpression (Source.tokens source') 7).result = .ok e' ∧
      (∀ x ∈ e.literals, x.Plain) ∧ (∀ x ∈ e'.literals, x.Plain) ∧
      e.written = "(- (call (. a b) 1.0 c))" ∧ e'.written = e.written ∧
      e'.relabel .bare = e.relabel .bare := by
  intro source source'
  let one := Source.numberOfDigits ['1'] 0
  let text := "(- (call (. a b) 1.0 c))"
  have hone : one.isInf = false := by decide +kernel
  have reads : ∀ {r : Except (List Complaint) Expr},
      r.toOption.map (fun e => (e.written, e.literals)) = some (text, [.number one]) →
        ∃ e, r = .ok e ∧ (∀ x ∈ e.literals, x.Plain) ∧ e.written = text := by
    intro r hr
    cases r with
    | error => cases hr
    | ok e =>
      obtain ⟨hwritten, hliterals⟩ := Prod.mk.inj (Option.some.inj hr)
      exact ⟨e, rfl, hliterals ▸ List.forall_mem_singleton.mpr hone, hwritten⟩
  have ha : (singleExpression (Source.tokens source) 0).result.toOption.map
      (fun e => (e.written, e.literals)) = some (text, [.number one]) := by decide +kernel
  have hb : (singleExpression (Source.tokens source') 7).result.toOption.map
      (fun e => (e.written, e.literals)) = some (text, [.number one]) := by decide +kernel
  obtain ⟨e, h, hplain, hwritten⟩ := reads ha
  obtain ⟨e', h', hplain', hwritten'⟩ := reads hb
  have heq : e'.written = e.written := hwritten'.trans hwritten.symm
  exact ⟨e, e', h, h', hplain, hplain', hwritten, heq,
    (written_identifies_expression h' h hplain' hplain).mp heq⟩

end Grammar

end Lox
