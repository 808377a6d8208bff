import Lox.Proofs.Grammar.Derivation

/-!
Every derivation has a strict one of the same tokens.

Where an `else` follows an open statement, it is moved inwards, to the last `if` that is open. This
moves a statement into more loops but never out of one, so that the result is as admissible as what
it comes from.
-/

namespace Lox.Grammar

/-- Only statements and declarations can be open. -/
lemma Derives.closed {strict : Bool} {q : Nonterminal} {x : q.Tree} {o : Bool} {ts : List Token}
    (h : Derives strict q x o ts) (hs : q ≠ .statement) (hd : q ≠ .declaration) : o = false := by
  cases h <;> first | rfl | exact absurd rfl hs | exact absurd rfl hd

/-- A strict derivation is a derivation. -/
lemma Derives.loosely {q : Nonterminal} {x : q.Tree} {o : Bool} {ts : List Token}
    (h : Derives true q x o ts) : Derives false q x o ts := by
  induction h with
  | nil => exact .nil
  | cons _ _ ih ihs => exact .cons ih ihs
  | classDecl h₁ h₂ h₃ _ h₄ ih => exact .classDecl h₁ h₂ h₃ ih h₄
  | funDecl h _ ih => exact .funDecl h ih
  | varDecl h => exact .varDecl h
  | ofStatement _ ih => exact .ofStatement ih
  | noMembers => exact .noMembers
  | instanceMethod _ _ ih ihs => exact .instanceMethod ih ihs
  | staticMethod h _ _ ih ihs => exact .staticMethod h ih ihs
  | function h₁ h₂ h₃ h₄ h₅ _ h₆ ih => exact .function h₁ h₂ h₃ h₄ h₅ ih h₆
  | getter h₁ h₂ _ h₃ ih => exact .getter h₁ h₂ ih h₃
  | exprStmt h => exact .exprStmt h
  | printStmt h₁ h₂ h₃ => exact .printStmt h₁ h₂ h₃
  | ifStmt h₁ h₂ h₃ h₄ _ ih => exact .ifStmt h₁ h₂ h₃ h₄ ih
  | ifElse h₁ h₂ h₃ h₄ _ _ h₅ _ ih ih' => exact .ifElse h₁ h₂ h₃ h₄ ih nofun h₅ ih'
  | whileStmt h₁ h₂ h₃ h₄ _ ih => exact .whileStmt h₁ h₂ h₃ h₄ ih
  | forStmt h₁ h₂ h₃ h₄ h₅ h₆ h₇ _ ih => exact .forStmt h₁ h₂ h₃ h₄ h₅ h₆ h₇ ih
  | breakStmt h₁ h₂ => exact .breakStmt h₁ h₂
  | returnStmt h₁ h₂ h₃ => exact .returnStmt h₁ h₂ h₃
  | block h₁ _ h₂ ih => exact .block h₁ ih h₂

/-- A statement and an `else` after it derive, one way or another. -/
def TakesElse : (q : Nonterminal) → q.Tree → Bool → List Token → Prop
  | .statement, s, true, ts => ∀ word s' o' us, word.kind = .keyword .kwElse →
      Derives true .statement s' o' us →
      ∃ r o, Derives true .statement r o (ts ++ word :: us) ∧
        ∀ b, Admissible b s → Admissible b s' → Admissible b r
  | _, _, _, _ => True

/-- An open statement takes an `else` after it. -/
lemma Derives.takesElse {q : Nonterminal} {x : q.Tree} {o : Bool} {ts : List Token}
    (h : Derives true q x o ts) : TakesElse q x o ts := by
  induction h with
  | @ifStmt word opening c ts closing s o us hword hopening hc hclosing h ih =>
    intro word' s' o' vs hword' h'
    cases o with
    | false =>
      refine ⟨.branch c s (some s'), o', ?_, fun b hs hs' => ?_⟩
      · simpa using Derives.ifElse hword hopening hc hclosing h (fun _ => rfl) hword' h'
      · rw [admissible_branch] at hs ⊢
        exact ⟨hs.1, hs.2.1, by simpa using hs'⟩
    | true =>
      obtain ⟨r, o'', hr, hadm⟩ := ih word' s' o' vs hword' h'
      refine ⟨.branch c r none, true, ?_, fun b hs hs' => ?_⟩
      · simpa using Derives.ifStmt hword hopening hc hclosing hr
      · rw [admissible_branch] at hs ⊢
        exact ⟨hs.1, hadm b hs.2.1 hs', by simp⟩
  | @ifElse word opening c ts closing s o us word₁ s₁ o₁ vs hword hopening hc hclosing h ho
      hword₁ _ _ ih =>
    cases o₁ with
    | false => trivial
    | true =>
      intro word' s' o' ws hword' h'
      obtain ⟨r, o'', hr, hadm⟩ := ih word' s' o' ws hword' h'
      refine ⟨.branch c s (some r), o'', ?_, fun b hs hs' => ?_⟩
      · simpa using Derives.ifElse hword hopening hc hclosing h ho hword₁ hr
      · rw [admissible_branch] at hs ⊢
        exact ⟨hs.1, hs.2.1, by simpa using hadm b (hs.2.2 s₁ rfl) hs'⟩
  | @whileStmt word opening c ts closing s o us hword hopening hc hclosing _ ih =>
    cases o with
    | false => trivial
    | true =>
      intro word' s' o' vs hword' h'
      obtain ⟨r, o'', hr, hadm⟩ := ih word' s' o' vs hword' h'
      refine ⟨.loop c r, o'', ?_, fun b hs hs' => ?_⟩
      · simpa using Derives.whileStmt hword hopening hc hclosing hr
      · rw [admissible_loop] at hs ⊢
        exact ⟨hs.1, hadm true hs.2 hs'.in_loop⟩
  | @forStmt word opening first ts condition us semicolon increment vs closing s o ws hword
      hopening hfirst hcondition hsemicolon hincrement hclosing _ ih =>
    cases o with
    | false => trivial
    | true =>
      intro word' s' o' xs hword' h'
      obtain ⟨r, o'', hr, hadm⟩ := ih word' s' o' xs hword' h'
      refine ⟨forLoop first condition increment r, o'', ?_, fun b hs hs' => ?_⟩
      · simpa using Derives.forStmt hword hopening hfirst hcondition hsemicolon hincrement
          hclosing hr
      · rw [admissible_forLoop] at hs ⊢
        exact ⟨hs.1, hs.2.1, hs.2.2.1, hadm true hs.2.2.2 hs'.in_loop⟩
  | _ => trivial

/-- Moving every `else` to the nearest `if`. -/
theorem Derives.strictly {q : Nonterminal} {x : q.Tree} {o : Bool} {ts : List Token}
    (h : Derives false q x o ts) :
    ∃ x' o', Derives true q x' o' ts ∧ ∀ b, q.Admissible b x → q.Admissible b x' := by
  induction h with
  | nil => exact ⟨_, _, .nil, fun _ h => h⟩
  | cons _ _ ih ihs =>
    obtain ⟨s', o', h, hadm⟩ := ih
    obtain ⟨body', o'', hs, hadms⟩ := ihs
    obtain rfl := hs.closed nofun nofun
    refine ⟨s' :: body', _, .cons h hs, fun b hb => ?_⟩
    obtain ⟨hb, hbs⟩ := List.forall_mem_cons.mp hb
    exact List.forall_mem_cons.mpr ⟨hadm b hb, hadms b hbs⟩
  | classDecl hword hname hopening _ hclosing ih =>
    obtain ⟨⟨methods, statics⟩, o', h, hadm⟩ := ih
    obtain rfl := h.closed nofun nofun
    refine ⟨_, _, .classDecl hword hname hopening h hclosing, fun b hb => ?_⟩
    exact admissible_classDecl.mpr (hadm b (admissible_classDecl.mp hb))
  | funDecl hword _ ih =>
    obtain ⟨d, o', h, hadm⟩ := ih
    obtain rfl := h.closed nofun nofun
    refine ⟨_, _, .funDecl hword h, fun b hb => ?_⟩
    exact admissible_function.mpr (hadm b (admissible_function.mp hb))
  | varDecl h => exact ⟨_, _, .varDecl h, fun _ h => h⟩
  | ofStatement _ ih =>
    obtain ⟨s', o', h, hadm⟩ := ih
    exact ⟨s', o', .ofStatement h, hadm⟩
  | noMembers => exact ⟨_, _, .noMembers, fun _ h => h⟩
  | instanceMethod _ _ ih ihs =>
    obtain ⟨m, o', h, hadm⟩ := ih
    obtain ⟨⟨methods, statics⟩, o'', hs, hadms⟩ := ihs
    obtain rfl := h.closed nofun nofun
    obtain rfl := hs.closed nofun nofun
    refine ⟨_, _, .instanceMethod h hs, fun b hb => ?_⟩
    obtain ⟨hm, hms⟩ := List.forall_mem_cons.mp hb.1
    obtain ⟨hms, hss⟩ := hadms b ⟨hms, hb.2⟩
    exact ⟨List.forall_mem_cons.mpr ⟨hadm b hm, hms⟩, hss⟩
  | staticMethod hword _ _ ih ihs =>
    obtain ⟨m, o', h, hadm⟩ := ih
    obtain ⟨⟨methods, statics⟩, o'', hs, hadms⟩ := ihs
    obtain rfl := h.closed nofun nofun
    obtain rfl := hs.closed nofun nofun
    refine ⟨_, _, .staticMethod hword h hs, fun b hb => ?_⟩
    obtain ⟨hm, hss⟩ := List.forall_mem_cons.mp hb.2
    obtain ⟨hms, hss⟩ := hadms b ⟨hb.1, hss⟩
    exact ⟨hms, List.forall_mem_cons.mpr ⟨hadm b hm, hss⟩⟩
  | function hname hopening hnames hclosing hbrace _ hbrace' ih =>
    obtain ⟨body, o', h, hadm⟩ := ih
    obtain rfl := h.closed nofun nofun
    exact ⟨_, _, .function hname hopening hnames hclosing hbrace h hbrace',
      fun b hb => ⟨hb.1, hadm false hb.2⟩⟩
  | getter hname hbrace _ hbrace' ih =>
    obtain ⟨body, o', h, hadm⟩ := ih
    obtain rfl := h.closed nofun nofun
    exact ⟨_, _, .getter hname hbrace h hbrace', fun b hb => ⟨hb.1, hadm false hb.2⟩⟩
  | exprStmt h => exact ⟨_, _, .exprStmt h, fun _ h => h⟩
  | printStmt hword he hsemicolon => exact ⟨_, _, .printStmt hword he hsemicolon, fun _ h => h⟩
  | ifStmt hword hopening hc hclosing _ ih =>
    obtain ⟨s', o', h, hadm⟩ := ih
    refine ⟨_, _, .ifStmt hword hopening hc hclosing h, fun b hb => ?_⟩
    obtain ⟨hw, hb, -⟩ := admissible_branch.mp hb
    exact admissible_branch.mpr ⟨hw, hadm b hb, by simp⟩
  | @ifElse word opening c ts closing s o us word₁ s₁ o₁ vs hword hopening hc hclosing _ _
      hword₁ _ ih ih₁ =>
    obtain ⟨s', o', h, hadm⟩ := ih
    obtain ⟨s₁', o₁', h₁, hadm₁⟩ := ih₁
    cases o' with
    | false =>
      refine ⟨.branch c s' (some s₁'), o₁',
        .ifElse hword hopening hc hclosing h (fun _ => rfl) hword₁ h₁, fun b hb => ?_⟩
      obtain ⟨hw, hb, hb₁⟩ := admissible_branch.mp hb
      refine admissible_branch.mpr ⟨hw, hadm b hb, ?_⟩
      rintro _ ⟨⟩
      exact hadm₁ b (hb₁ s₁ rfl)
    | true =>
      -- the statement has become open, and takes the `else` itself
      obtain ⟨r, o'', hr, hadmr⟩ := h.takesElse word₁ s₁' o₁' vs hword₁ h₁
      refine ⟨.branch c r none, true, .ifStmt hword hopening hc hclosing hr, fun b hb => ?_⟩
      obtain ⟨hw, hb, hb₁⟩ := admissible_branch.mp hb
      exact admissible_branch.mpr ⟨hw, hadmr b (hadm b hb) (hadm₁ b (hb₁ s₁ rfl)), by simp⟩
  | whileStmt hword hopening hc hclosing _ ih =>
    obtain ⟨s', o', h, hadm⟩ := ih
    refine ⟨_, _, .whileStmt hword hopening hc hclosing h, fun b hb => ?_⟩
    obtain ⟨hw, hb⟩ := admissible_loop.mp hb
    exact admissible_loop.mpr ⟨hw, hadm true hb⟩
  | forStmt hword hopening hfirst hcondition hsemicolon hincrement hclosing _ ih =>
    obtain ⟨s', o', h, hadm⟩ := ih
    refine ⟨_, _, .forStmt hword hopening hfirst hcondition hsemicolon hincrement hclosing h,
      fun b hb => ?_⟩
    obtain ⟨h₁, h₂, h₃, hb⟩ := admissible_forLoop.mp hb
    exact admissible_forLoop.mpr ⟨h₁, h₂, h₃, hadm true hb⟩
  | breakStmt hword hsemicolon => exact ⟨_, _, .breakStmt hword hsemicolon, fun _ h => h⟩
  | returnStmt hword hvalue hsemicolon =>
    exact ⟨_, _, .returnStmt hword hvalue hsemicolon, fun _ h => h⟩
  | block hopening _ hclosing ih =>
    obtain ⟨body', o', h, hadm⟩ := ih
    obtain rfl := h.closed nofun nofun
    refine ⟨_, _, .block hopening h hclosing, fun b hb => ?_⟩
    exact admissible_block.mpr (hadm b (admissible_block.mp hb))

end Lox.Grammar
