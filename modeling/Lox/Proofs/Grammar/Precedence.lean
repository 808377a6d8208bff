import Lox.Grammar.Expression
import Lox.Proofs.Grammar.Yield

/-!
Which expressions stand at which level of the grammar.

The cascade is taken here as a property of trees, with tables of its own: the order of the levels,
and the level of each operator. Two facts about tokens make a reader follow it without looking
back: which tokens begin an expression of a level, and which go on with one.
-/

namespace Lox.Grammar

/-- The place of a level in the cascade, counted from the tight end. -/
def Level.height : Level → ℕ
  | comma => 11
  | assignment => 10
  | conditional => 9
  | or => 8
  | and => 7
  | equality => 6
  | comparison => 5
  | term => 4
  | factor => 3
  | unary => 2
  | call => 1
  | primary => 0

/-- The level of an operator that evaluates both operands. -/
def binaryLevel? : Kind → Option Level
  | .symbol .comma => some .comma
  | .symbol .bangEqual | .symbol .equalEqual => some .equality
  | .symbol .greater | .symbol .greaterEqual | .symbol .less | .symbol .lessEqual =>
    some .comparison
  | .symbol .minus | .symbol .plus => some .term
  | .symbol .slash | .symbol .star => some .factor
  | _ => none

/-- The level of an operator that may leave its right operand alone. -/
def logicalLevel? : Kind → Option Level
  | .keyword .kwOr => some .or
  | .keyword .kwAnd => some .and
  | _ => none

/-- The expressions of a level. Operators with two operands associate to the left, and so do calls
and properties; assignments and conditionals associate to the right. Only a name or a property is
assigned to. -/
inductive At : Level → Expr → Prop
  | tighter {l l' e} : l'.height < l.height → At l' e → At l e
  | binary {l l' left op right} : binaryLevel? op.kind = some l → At l left →
      l'.height < l.height → At l' right → At l (.binary left op right)
  | logical {l l' left op right} : logicalLevel? op.kind = some l → At l left →
      l'.height < l.height → At l' right → At l (.logical left op right)
  | assign {id name value} : name.kind = .identifier → At .assignment value →
      At .assignment (.assign id name value)
  | setProperty {object name value} : At .call object → name.kind = .identifier →
      At .assignment value → At .assignment (.setProperty object name value)
  | conditional {c t e} : At .or c → At .comma t → At .conditional e →
      At .conditional (.conditional c t e)
  | unary {op operand} : op.kind = .symbol .bang ∨ op.kind = .symbol .minus →
      At .unary operand → At .unary (.unary op operand)
  | call {callee paren arguments} : At .call callee → paren.kind = .symbol .rightParen →
      (∀ a ∈ arguments, At .assignment a) → At .call (.call callee paren arguments)
  | property {object name} : At .call object → name.kind = .identifier →
      At .call (.property object name)
  | group {inner} : At .comma inner → At .primary (.group inner)
  | literal {x} : At .primary (.literal x)
  | reference {id name} : name.kind = .identifier → At .primary (.reference id name)
  | this {id keyword} : keyword.kind = .keyword .kwThis → At .primary (.this id keyword)

/-! ### The levels of the reader -/

lemma Level.height_tighter (l : Level) : l.tighter.height = l.height - 1 := by
  cases l <;> rfl

lemma Level.eq_of_height_eq {l l' : Level} (h : l.height = l'.height) : l = l' := by
  cases l <;> cases l' <;> first | rfl | exact absurd h (by decide)

lemma Level.height_le (l : Level) : l.height ≤ 11 := by
  cases l <;> decide

lemma binaryLevel?_of_chains {l : Level} {k : Kind} (h : l.chains k) :
    (binaryLevel? k = some l ∧ ∀ left op right, l.link left op right = .binary left op right) ∨
      (logicalLevel? k = some l ∧
        ∀ left op right, l.link left op right = .logical left op right) := by
  unfold Level.chains at h
  split at h <;> first | exact absurd h (by decide) | simp [binaryLevel?, logicalLevel?, Level.link]

lemma chains_of_binaryLevel? {l : Level} {k : Kind} (h : binaryLevel? k = some l) :
    l.chains k ∧ ∀ left op right, l.link left op right = .binary left op right := by
  unfold binaryLevel? at h
  split at h <;> cases h <;> exact ⟨rfl, fun _ _ _ => rfl⟩

lemma chains_of_logicalLevel? {l : Level} {k : Kind} (h : logicalLevel? k = some l) :
    l.chains k ∧ ∀ left op right, l.link left op right = .logical left op right := by
  unfold logicalLevel? at h
  split at h <;> cases h <;> exact ⟨rfl, fun _ _ _ => rfl⟩

/-- The binary operators are commas, or tighter than all logical ones. -/
lemma height_of_binaryLevel? {l : Level} {k : Kind} (h : binaryLevel? k = some l) :
    (l = .comma ∧ k = .symbol .comma) ∨ l.height < Level.and.height := by
  unfold binaryLevel? at h
  split at h <;> cases h <;> decide

lemma height_of_logicalLevel? {l : Level} {k : Kind} (h : logicalLevel? k = some l) :
    Level.and.height ≤ l.height ∧ l.height ≤ Level.or.height := by
  unfold logicalLevel? at h
  split at h <;> cases h <;> decide

lemma height_tighter_lt_of_chains {l : Level} {k : Kind} (h : l.chains k) :
    l.tighter.height < l.height := by
  unfold Level.chains at h
  split at h <;> first | decide | exact absurd h (by decide)

lemma At.link {l : Level} {left op right} (hop : l.chains op.kind) (hl : At l left)
    (hr : At l.tighter right) : At l (l.link left op right) := by
  have hlt := height_tighter_lt_of_chains hop
  rcases binaryLevel?_of_chains hop with ⟨h, hlink⟩ | ⟨h, hlink⟩
  · exact hlink left op right ▸ .binary h hl hlt hr
  · exact hlink left op right ▸ .logical h hl hlt hr

lemma isUnary_iff {k : Kind} : isUnary k ↔ k = .symbol .bang ∨ k = .symbol .minus := by
  unfold isUnary
  split <;> simp_all

section
variable (l : Level) (left : Expr) (op : Token) (right : Expr)

lemma link_eq_or : l.link left op right = .logical left op right ∨
    l.link left op right = .binary left op right := by
  cases l <;> simp [Level.link]

lemma yield_link : (l.link left op right).yield = left.yield ++ .token op :: right.yield := by
  rcases link_eq_or l left op right with h | h <;> simp [h, Expr.yield]

lemma widest_link : (l.link left op right).widest = max left.widest right.widest := by
  rcases link_eq_or l left op right with h | h <;> simp [h, Expr.widest]

lemma ids_link : (l.link left op right).ids = left.ids ++ right.ids := by
  rcases link_eq_or l left op right with h | h <;> simp [h, Expr.ids]

lemma unnumbered_link :
    (l.link left op right).unnumbered = l.link left.unnumbered op right.unnumbered := by
  cases l <;> simp [Level.link, Expr.unnumbered]

end

/-! ### What begins an expression -/

/-- The tokens that begin an expression. -/
def begins : Kind → Bool
  | .keyword .kwFalse | .keyword .kwTrue | .keyword .kwNil | .keyword .kwThis => true
  | .number _ | .string _ | .identifier => true
  | .symbol .leftParen | .symbol .bang | .symbol .minus => true
  | _ => false

/-- The tokens that begin an expression of a level: operators only if it is loose enough. -/
def beginsAt (l : Level) (k : Kind) : Prop :=
  begins k ∧ (l = .call ∨ l = .primary → ¬ isUnary k)

lemma beginsAt.loosen {l l' : Level} {k : Kind} (h : beginsAt l k)
    (hl : l' = .call ∨ l' = .primary → l = .call ∨ l = .primary) : beginsAt l' k :=
  ⟨h.1, fun h' => h.2 (hl h')⟩

/-- What fits the marks begins with a token that begins an expression of the level. -/
def Begins (l : Level) (marks : List Mark) : Prop :=
  ∀ ts, Spells marks ts → ∃ t us, ts = t :: us ∧ beginsAt l t.kind

lemma Begins.append {l : Level} {xs : List Mark} (h : Begins l xs) (ys : List Mark) :
    Begins l (xs ++ ys) := by
  intro ts hs
  obtain ⟨us, vs, hu, -, rfl⟩ := spells_append.mp hs
  obtain ⟨t, us, rfl, h⟩ := h us hu
  exact ⟨t, us ++ vs, rfl, h⟩

lemma Begins.loosen {l l' : Level} {xs : List Mark} (h : Begins l xs)
    (hl : l' = .call ∨ l' = .primary → l = .call ∨ l = .primary) : Begins l' xs := by
  intro ts hs
  obtain ⟨t, us, rfl, h⟩ := h ts hs
  exact ⟨t, us, rfl, h.loosen hl⟩

lemma begins_cons {l : Level} {m : Mark} (h : beginsAt l m.kindOf) (xs : List Mark) :
    Begins l (m :: xs) := by
  intro ts hs
  obtain ⟨t, us, ht, -, rfl⟩ := spells_cons.mp hs
  exact ⟨t, us, rfl, ht.kind_eq ▸ h⟩

lemma begins_kind {l : Level} {k : Kind} (h : begins k) (h' : isUnary k = false)
    (xs : List Mark) : Begins l (.kind k :: xs) :=
  begins_cons (m := .kind k) ⟨h, fun _ => by rw [Mark.kindOf, h']; decide⟩ xs

lemma begins_token {l : Level} {t : Token} {k : Kind} (ht : t.kind = k) (h : begins k)
    (h' : isUnary k = false) (xs : List Mark) : Begins l (.token t :: xs) :=
  begins_cons ⟨by rw [Mark.kindOf, ht, h], fun _ => by rw [Mark.kindOf, ht, h']; decide⟩ xs

/-- The text of an expression of a level begins with a token that begins such an expression. -/
lemma At.begins {l : Level} {e : Expr} (h : At l e) : Begins l e.yield := by
  induction h with
  | @tighter l l' e hlt _ ih =>
    refine ih.loosen ?_
    rintro (rfl | rfl) <;> cases l' <;> simp [Level.height] at hlt ⊢
  | binary _ _ _ _ ih _ => exact ih.append _
  | logical _ _ _ _ ih _ => exact ih.append _
  | assign hname _ _ => exact begins_token hname rfl rfl _
  | setProperty _ _ _ ih _ => exact (ih.append _).loosen fun _ => .inl rfl
  | conditional _ _ _ ih _ _ => exact (ih.append _).loosen (by simp)
  | unary hop _ _ =>
    refine begins_cons ⟨?_, by simp⟩ _
    rcases hop with hop | hop <;> rw [Mark.kindOf, hop] <;> rfl
  | call _ _ _ ih _ => exact ih.append _
  | property _ _ ih => exact ih.append _
  | group _ _ => exact begins_kind rfl rfl _
  | @literal x => rcases x with x | s | (_ | _) | _ <;> exact begins_kind rfl rfl _
  | reference hname => exact begins_token hname rfl rfl _
  | this hword => exact begins_token hword rfl rfl _

/-! ### What goes on with an expression -/

/-- The level at which a token goes on with an expression that stands in front of it. -/
def continues? : Kind → Option Level
  | .symbol .comma => some .comma
  | .symbol .equal => some .assignment
  | .symbol .question => some .conditional
  | .keyword .kwOr => some .or
  | .keyword .kwAnd => some .and
  | .symbol .bangEqual | .symbol .equalEqual => some .equality
  | .symbol .greater | .symbol .greaterEqual | .symbol .less | .symbol .lessEqual =>
    some .comparison
  | .symbol .minus | .symbol .plus => some .term
  | .symbol .slash | .symbol .star => some .factor
  | .symbol .leftParen | .symbol .dot => some .call
  | _ => none

/-- No expression of a level goes on with these tokens. -/
def Stops (l : Level) (rest : List Token) : Prop :=
  ∀ t ∈ rest.head?, ∀ l' ∈ continues? t.kind, l.height < l'.height

@[simp] lemma stops_nil (l : Level) : Stops l [] := by simp [Stops]

lemma stops_cons {l : Level} {t : Token} {rest : List Token} :
    Stops l (t :: rest) ↔ ∀ l' ∈ continues? t.kind, l.height < l'.height := by
  simp [Stops]

lemma Stops.tighter {l : Level} {rest : List Token} (h : Stops l rest) : Stops l.tighter rest :=
  fun t ht l' hl' => by have := h t ht l' hl'; rw [Level.height_tighter]; omega

lemma stops_of_continues {l : Level} {t : Token} {rest : List Token} {l' : Level}
    (ht : continues? t.kind = some l') (h : l.height < l'.height) : Stops l (t :: rest) := by
  rw [stops_cons, ht]
  rintro _ ⟨⟩
  exact h

lemma stops_of_not_continues {l : Level} {t : Token} {rest : List Token}
    (ht : continues? t.kind = none) : Stops l (t :: rest) := by
  simp [stops_cons, ht]

lemma continues?_of_chains {l : Level} {k : Kind} (h : l.chains k) : continues? k = some l := by
  unfold Level.chains at h
  split at h <;> first | rfl | exact absurd h (by decide)

/-- What stops a level is no token that goes on with it. -/
lemma Stops.head {l : Level} {rest : List Token} (h : Stops l rest) {p : Kind → Bool}
    (hp : ∀ k, p k → ∃ l', continues? k = some l' ∧ l'.height ≤ l.height) :
    ∀ t ∈ rest.head?, p t.kind = false := by
  intro t ht
  by_contra hpt
  obtain ⟨l', hl', hle⟩ := hp _ (by simpa using hpt)
  exact absurd (h t ht l' hl') (not_lt.mpr hle)

end Lox.Grammar
