import Lox.Proofs.Forest.Chains

/-!
What is written to a forest, and what is read from it later.

A request to write reaches one variable of one frame, or none. So a forest is a store of variables,
each under its frame and its name, in which one request writes at most one variable, and what is
read is what the last request wrote that had reached the variable, whichever way it came.
-/

namespace Lox

/-- The value that a request is to write. -/
def Forest.Request.value? {α : Type} : Forest.Request α → Option α
  | .define _ _ a | .assign _ _ a | .assignAt _ _ _ a => some a
  | .root | .child _ | .own .. | .get .. | .getAt .. => none

namespace Forest

variable {α : Type}

/-- The variable that a request reaches: by its frame, by the nearest frame that binds it, or by the
frame that stands so many hops outward and binds it. -/
inductive Reaches (past : List (Request α)) : Request α → FrameId → String → Prop
  | define {f name a} : Reaches past (.define f name a) f name
  | own {f name} : Reaches past (.own f name) f name
  | get {f x d g} (h : Nearest past f x.lexeme d g) : Reaches past (.get f x) g x.lexeme
  | assign {f x a d g} (h : Nearest past f x.lexeme d g) : Reaches past (.assign f x a) g x.lexeme
  | getAt {f d x g} (h : Hops past f d g) (hbinds : ((after past).own? g x.lexeme).isSome) :
    Reaches past (.getAt f d x) g x.lexeme
  | assignAt {f d x a g} (h : Hops past f d g) (hbinds : ((after past).own? g x.lexeme).isSome) :
    Reaches past (.assignAt f d x a) g x.lexeme

/-- The last request that was to write the variable and reached it was to write `a`. -/
inductive LastWrote : List (Request α) → FrameId → String → α → Prop
  | now {past r g name a} (h : Reaches past r g name) (ha : r.value? = some a) :
    LastWrote (r :: past) g name a
  | before {past r g name a} (h : LastWrote past g name a)
    (hr : r.value? = none ∨ ¬Reaches past r g name) : LastWrote (r :: past) g name a

variable {past : List (Request α)} {r : Request α} {s : Forest α} {f g g' : FrameId}
  {name name' : String} {a : α}

/-! ### The variable that a request finds -/

/-- The variable that a request finds, by the environment of its frame. -/
def found? (s : Forest α) : Request α → Option (FrameId × String)
  | .root | .child _ => none
  | .define f name _ | .own f name => some (f, name)
  | .get f x | .assign f x _ => (s.frames.holder? (s.env f) x.lexeme).map (·, x.lexeme)
  | .getAt f d x | .assignAt f d x _ =>
    (s.frames.holderAt? (s.env f) d x.lexeme).map (·, x.lexeme)

lemma map_eq_some {x : String} {holder : Option FrameId} :
    holder.map (·, x) = some (g, name) ↔ holder = some g ∧ x = name := by
  cases holder <;> simp

/-- A request finds the variable that it reaches. -/
theorem reaches_iff (h : Possible past) (hr : (after past).Admits r) :
    Reaches past r g name ↔ (after past).found? r = some (g, name) := by
  constructor
  · rintro (_ | _ | hnearest | hnearest | ⟨hhops, hbinds⟩ | ⟨hhops, hbinds⟩)
    · rfl
    · rfl
    · exact map_eq_some.mpr ⟨(holder?_eq_some h (hr _ rfl)).mpr ⟨_, hnearest⟩, rfl⟩
    · exact map_eq_some.mpr ⟨(holder?_eq_some h (hr _ rfl)).mpr ⟨_, hnearest⟩, rfl⟩
    · exact map_eq_some.mpr ⟨(holderAt?_eq_some h (hr _ rfl)).mpr ⟨hhops, hbinds⟩, rfl⟩
    · exact map_eq_some.mpr ⟨(holderAt?_eq_some h (hr _ rfl)).mpr ⟨hhops, hbinds⟩, rfl⟩
  · intro hfound
    cases r with
    | root | child => cases hfound
    | define | own =>
      cases hfound
      constructor
    | get | assign =>
      obtain ⟨hholder, rfl⟩ := map_eq_some.mp hfound
      obtain ⟨d, hnearest⟩ := (holder?_eq_some h (hr _ rfl)).mp hholder
      constructor
      exact hnearest
    | getAt | assignAt =>
      obtain ⟨hholder, rfl⟩ := map_eq_some.mp hfound
      obtain ⟨hhops, hbinds⟩ := (holderAt?_eq_some h (hr _ rfl)).mp hholder
      constructor
      · exact hhops
      · exact hbinds

lemma reaches_unique (h : Possible past) (hr : (after past).Admits r) (hg : Reaches past r g name)
    (hg' : Reaches past r g' name') : g' = g ∧ name' = name := by
  have hfound := ((reaches_iff h hr).mp hg').symm.trans ((reaches_iff h hr).mp hg)
  exact Prod.mk.inj (Option.some.inj hfound)

lemma lt_next_of_own? (h : (s.own? g name).isSome) : g < s.frames.next := by
  by_contra hle
  have hnone : s.frames.tables[g]? = none := Array.getElem?_eq_none (Nat.le_of_not_lt hle)
  unfold own? Frames.own? at h
  rw [hnone] at h
  cases h

/-! ### What a request changes -/

lemma own?_write (hg : g < s.frames.next) :
    (s.write g name a).own? g' name' =
      if g' = g ∧ name' = name then some a else s.own? g' name' := by
  refine (Frames.own?_write ..).trans ?_
  simp only [hg, and_true, eq_comm]
  rfl

lemma own?_grow (around : Env) : (s.grow around).own? g name = s.own? g name := by
  refine (Frames.own?_push ..).trans ?_
  split
  · rename_i hg
    refine (Option.not_isSome_iff_eq_none.mp fun hsome => ?_).symm
    exact Nat.lt_irrefl _ (hg ▸ lt_next_of_own? hsome)
  · rfl

/-- A request to write that reaches a variable writes it. -/
lemma answer_reached (h : Possible past) (hr : (after past).Admits r) (hg : Reaches past r g name)
    (ha : r.value? = some a) :
    (after past).answer r = ((after past).write g name a, .written) := by
  cases hg with
  | define =>
    cases ha
    exact answer_define ((hops_iff h (hr _ rfl)).mp .here)
  | own | get | getAt => cases ha
  | assign hnearest =>
    cases ha
    rw [answer_assign, (holder?_eq_some h (hr _ rfl)).mpr ⟨_, hnearest⟩]
    rfl
  | assignAt hhops hbinds =>
    cases ha
    rw [answer_assignAt, (holderAt?_eq_some h (hr _ rfl)).mpr ⟨hhops, hbinds⟩]
    rfl

/-- A request to write that reaches no variable fails, and changes nothing. -/
lemma answer_not_reached (h : Possible past) (hr : (after past).Admits r)
    (hnone : ∀ g name, ¬Reaches past r g name) (ha : r.value? = some a) :
    ∃ x, (after past).answer r = (after past, .failed (undefined x)) := by
  cases r with
  | root | child | own | get | getAt => cases ha
  | define => exact absurd .define (hnone _ _)
  | assign f x =>
    refine ⟨x, ?_⟩
    rw [answer_assign]
    cases hholder : (after past).frames.holder? ((after past).env f) x.lexeme with
    | none => rfl
    | some g =>
      obtain ⟨d, hnearest⟩ := (holder?_eq_some h (hr _ rfl)).mp hholder
      exact absurd (.assign hnearest) (hnone _ _)
  | assignAt f d x =>
    refine ⟨x, ?_⟩
    rw [answer_assignAt]
    cases hholder : (after past).frames.holderAt? ((after past).env f) d x.lexeme with
    | none => rfl
    | some g =>
      obtain ⟨hhops, hbinds⟩ := (holderAt?_eq_some h (hr _ rfl)).mp hholder
      exact absurd (.assignAt hhops hbinds) (hnone _ _)

/-- A request that is to write nothing writes nothing. -/
lemma answer_reading (ha : r.value? = none) :
    (s.answer r).2 ≠ .written ∧ (∀ g name, (s.answer r).1.own? g name = s.own? g name) ∧
      ∀ e, (s.answer r).2 = .failed e → (s.answer r).1 = s := by
  have hown : ∀ o : Option α, o.elim .unbound Reply.value ≠ .written := fun o => by
    cases o <;> simp
  have hfound : ∀ (x : Token) (o : Option α), replyFound x o ≠ .written := fun x o => by
    cases o <;> simp [replyFound]
  cases r with
  | root | child => exact ⟨nofun, fun _ _ => own?_grow _, nofun⟩
  | define | assign | assignAt => cases ha
  | own => exact ⟨hown _, fun _ _ => rfl, fun _ _ => rfl⟩
  | get | getAt => exact ⟨hfound _ _, fun _ _ => rfl, fun _ _ => rfl⟩

/-- What a request that is to write something does, by the variable that it reaches. -/
theorem answer_writing (h : Possible past) (hr : (after past).Admits r) (ha : r.value? = some a) :
    (∃ g name, Reaches past r g name ∧
      (after past).answer r = ((after past).write g name a, .written)) ∨
    (∀ g name, ¬Reaches past r g name) ∧
      ∃ x, (after past).answer r = (after past, .failed (undefined x)) := by
  by_cases hreached : ∃ g name, Reaches past r g name
  · obtain ⟨g, name, hg⟩ := hreached
    exact .inl ⟨g, name, hg, answer_reached h hr hg ha⟩
  · have hnone : ∀ g name, ¬Reaches past r g name := fun g name hg => hreached ⟨g, name, hg⟩
    exact .inr ⟨hnone, answer_not_reached h hr hnone ha⟩

/-- A request is to write nothing, or writes the variable that it reaches, or reaches none. -/
lemma answer_cases (h : Possible past) (hs : after past = s) (hr : s.Admits r) :
    (r.value? = none ∧ (s.answer r).2 ≠ .written ∧
      (∀ g name, (s.answer r).1.own? g name = s.own? g name) ∧
      ∀ e, (s.answer r).2 = .failed e → (s.answer r).1 = s) ∨
    (∃ a g name, r.value? = some a ∧ Reaches past r g name ∧ (s.answer r).2 = .written) ∨
    (∀ g name, ¬Reaches past r g name) ∧ (s.answer r).2 ≠ .written ∧ (s.answer r).1 = s := by
  subst hs
  cases ha : r.value? with
  | none => exact .inl ⟨rfl, answer_reading ha⟩
  | some a =>
    obtain ⟨g, name, hg, hanswer⟩ | ⟨hnone, x, hanswer⟩ := answer_writing h hr ha
    · exact .inr (.inl ⟨a, g, name, rfl, hg, congrArg Prod.snd hanswer⟩)
    · refine .inr (.inr ⟨hnone, fun hwritten => ?_, congrArg Prod.fst hanswer⟩)
      exact nomatch (congrArg Prod.snd hanswer).symm.trans hwritten

lemma lt_next_of_reaches (hr : (after past).Admits r)
    (hg : Reaches past r g name) : g < (after past).frames.next := by
  cases hg with
  | define | own => exact hr _ rfl
  | get hnearest | assign hnearest => exact lt_next_of_own? hnearest.binds
  | getAt _ hbinds | assignAt _ hbinds => exact lt_next_of_own? hbinds

lemma own?_answer_of_reached (h : Possible past) (hr : (after past).Admits r)
    (hg : Reaches past r g name) (ha : r.value? = some a) (g' : FrameId) (name' : String) :
    ((after past).answer r).1.own? g' name' =
      if g' = g ∧ name' = name then some a else (after past).own? g' name' := by
  rw [answer_reached h hr hg ha, own?_write (lt_next_of_reaches hr hg)]

lemma own?_answer_of_not_reached (h : Possible past) (hr : (after past).Admits r)
    (hg : r.value? = none ∨ ¬Reaches past r g name) :
    ((after past).answer r).1.own? g name = (after past).own? g name := by
  cases ha : r.value? with
  | none => exact (answer_reading ha).2.1 g name
  | some a =>
    rw [ha] at hg
    replace hg := hg.resolve_left nofun
    obtain ⟨g', name', hg', -⟩ | ⟨-, x, hx⟩ := answer_writing h hr ha
    · rw [own?_answer_of_reached h hr hg' ha, if_neg]
      rintro ⟨rfl, rfl⟩
      exact hg hg'
    · rw [hx]

/-! ### What is read later -/

/-- A variable has the value that the last request wrote that was to write it. -/
theorem lastWrote_iff (h : Possible past) :
    LastWrote past g name a ↔ (after past).own? g name = some a := by
  induction past with
  | nil => exact ⟨nofun, nofun⟩
  | cons r past ih =>
    obtain ⟨hpast, hr⟩ := h
    constructor
    · rintro (⟨hg, ha⟩ | ⟨hlast, hnot⟩)
      · exact (own?_answer_of_reached hpast hr hg ha g name).trans (if_pos ⟨rfl, rfl⟩)
      · exact (own?_answer_of_not_reached hpast hr hnot).trans ((ih hpast).mp hlast)
    · intro hown
      by_cases hnot : r.value? = none ∨ ¬Reaches past r g name
      · refine .before ((ih hpast).mpr ?_) hnot
        rw [← own?_answer_of_not_reached hpast hr hnot]
        exact hown
      · obtain ⟨hvalue, hg⟩ := not_or.mp hnot
        obtain ⟨b, hb⟩ := Option.ne_none_iff_exists'.mp hvalue
        have hnow := (own?_answer_of_reached hpast hr (not_not.mp hg) hb g name).symm.trans hown
        rw [if_pos ⟨rfl, rfl⟩] at hnow
        exact .now (not_not.mp hg) (hb.trans hnow)

lemma replyFound_eq_value {x : Token} {o : Option α} : replyFound x o = .value a ↔ o = some a := by
  cases o <;> simp [replyFound]

lemma readIn_eq_value {x : Token} {holder : Option FrameId} :
    (s.readIn x holder).2 = .value a ↔
      ∃ g name, holder.map (·, x.lexeme) = some (g, name) ∧ s.own? g name = some a := by
  refine replyFound_eq_value.trans ?_
  cases holder <;> simp

/-- A request to read gives the value of the variable that it finds. -/
lemma answer_eq_value (ha : r.value? = none) :
    (s.answer r).2 = .value a ↔ ∃ g name, s.found? r = some (g, name) ∧ s.own? g name = some a := by
  cases r with
  | root | child => simp [answer, found?]
  | define | assign | assignAt => cases ha
  | own f name => cases hown : s.own? f name <;> simp [answer, found?, hown]
  | get f x => exact answer_get x ▸ readIn_eq_value
  | getAt f d x => exact answer_getAt x ▸ readIn_eq_value

lemma value_of_answer (h : Possible past) (hr : (after past).Admits r) :
    ((after past).answer r).2 = .value a ↔
      r.value? = none ∧ ∃ g name, Reaches past r g name ∧ LastWrote past g name a := by
  simp only [reaches_iff h hr, lastWrote_iff h]
  cases hb : r.value? with
  | none => simp [answer_eq_value hb]
  | some b =>
    obtain ⟨g, name, -, hanswer⟩ | ⟨-, x, hanswer⟩ := answer_writing h hr hb <;> simp [hanswer]

/-- Each request writes at most one variable of one frame. One that is to write something and
reaches a variable changes this one and no other, and only a definition creates it; any other
changes no variable, and one that fails nothing at all. What a request reads is what the last
request wrote that had reached the same variable. -/
theorem writes_reach_one_variable (h : Possible past) (hr : (after past).Admits r) :
    let s := after past
    let s' := (s.answer r).1
    let reply := (s.answer r).2
    (reply = .written ↔ r.value?.isSome ∧ ∃ g name, Reaches past r g name) ∧
    (∀ g name g' name', Reaches past r g name → Reaches past r g' name' → g' = g ∧ name' = name) ∧
    (∀ g name a, Reaches past r g name → r.value? = some a →
      (∀ g' name', s'.own? g' name' =
        if g' = g ∧ name' = name then some a else s.own? g' name') ∧
      ((∀ f x b, r ≠ .define f x b) → (s.own? g name).isSome)) ∧
    (reply ≠ .written → ∀ g name, s'.own? g name = s.own? g name) ∧
    (∀ e, reply = .failed e → s' = s) ∧
    (∀ a, reply = .value a ↔
      r.value? = none ∧ ∃ g name, Reaches past r g name ∧ LastWrote past g name a) ∧
    ∀ g name a, LastWrote past g name a ↔ s.own? g name = some a := by
  dsimp only
  have hcases := answer_cases h rfl hr
  refine ⟨?_, fun g name g' name' => reaches_unique h hr, fun g name a hg ha => ⟨?_, ?_⟩, ?_, ?_,
    fun a => value_of_answer h hr, fun g name a => lastWrote_iff h⟩
  · obtain ⟨ha, hreply, -⟩ | ⟨a, g, name, ha, hg, hreply⟩ | ⟨hnone, hreply, -⟩ := hcases
    · simp [ha, hreply]
    · simp only [ha, hreply, Option.isSome_some, true_and, true_iff]
      exact ⟨g, name, hg⟩
    · simp [hnone, hreply]
  · exact own?_answer_of_reached h hr hg ha
  · intro hdefine
    cases hg with
    | define => exact absurd rfl (hdefine _ _ _)
    | own | get | getAt => cases ha
    | assign hnearest => exact hnearest.binds
    | assignAt _ hbinds => exact hbinds
  · intro hreply g name
    obtain ⟨-, -, hsame, -⟩ | ⟨a, -, -, -, -, hwritten⟩ | ⟨-, -, hsame⟩ := hcases
    · exact hsame g name
    · exact absurd hwritten hreply
    · rw [hsame]
  · intro e hfailed
    obtain ⟨-, -, -, hsame⟩ | ⟨a, -, -, -, -, hwritten⟩ | ⟨-, -, hsame⟩ := hcases
    · exact hsame e hfailed
    · exact nomatch hwritten.symm.trans hfailed
    · exact hsame

/-- A variable of a frame, written through one frame inside it and read through another. -/
theorem writes_reach_one_variable_of_siblings :
    let past : List (Request ℕ) := [.child 0, .child 0, .define 0 "a" 1, .define 0 "b" 2, .root]
    let a : Token := ⟨.identifier, "a", 1⟩
    let write : Request ℕ := .assignAt 1 1 a 3
    let read : Request ℕ := .get 2 a
    Possible (read :: write :: past) ∧ ((after past).answer write).2 = .written ∧
      (after (write :: past)).own? 0 "a" = some 3 ∧ (after (write :: past)).own? 0 "b" = some 2 ∧
      ((after (write :: past)).answer read).2 = .value 3 := by
  intro past a write read
  have hpossible : Possible (read :: write :: past) := by decide
  have hlater : Possible (write :: past) := hpossible.1
  have hread : (after (write :: past)).Admits read := hpossible.2
  have hpast : Possible past := hlater.1
  have hwrite : (after past).Admits write := hlater.2
  have hout : Hops past 1 1 0 := (hops_iff hpast (by decide)).mpr (by decide)
  have hout' : Hops (write :: past) 2 1 0 := (hops_iff hlater (by decide)).mpr (by decide)
  have hreached : Reaches past write 0 "a" := .assignAt hout (by decide)
  have hnearest : Nearest (write :: past) 2 "a" 1 0 := by
    refine ⟨hout', by decide, fun d hd h hh => ?_⟩
    obtain rfl : d = 0 := Nat.lt_one_iff.mp hd
    cases hh
    decide
  obtain ⟨hwritten, -, hchange, -⟩ := writes_reach_one_variable hpast hwrite
  obtain ⟨-, -, -, -, -, hvalue, -⟩ := writes_reach_one_variable hlater hread
  have hcells := (hchange 0 "a" 3 hreached rfl).1
  refine ⟨hpossible, hwritten.mpr ⟨rfl, 0, "a", hreached⟩, hcells 0 "a", ?_, ?_⟩
  · exact (hcells 0 "b").trans (by decide)
  · exact (hvalue 3).mpr ⟨rfl, 0, "a", .get hnearest, .now hreached rfl⟩

end Forest

end Lox
