import Mathlib.Tactic.Common
import Lox.Forest

/-!
How the frames of a forest lie inside one another.

A forest comes about by requests, and what was asked of it says under which frame each frame was
added, and so how many hops outward one frame stands from another. A look-up walks along these
hops: the frame that it finds is the nearest one that binds the name, or the one that stands so many
hops outward.
-/

namespace Lox

/-- The frame at which a request starts. -/
def Forest.Request.frame? {α : Type} : Forest.Request α → Option FrameId
  | .root => none
  | .child f | .define f .. | .own f _ | .get f _ | .getAt f .. | .assign f .. | .assignAt f .. =>
    some f

namespace Forest

variable {α : Type}

/-! ### The past of a forest -/

/-- The forest after these requests, of which the last one stands first. -/
def after : List (Request α) → Forest α
  | [] => .empty
  | r :: past => ((after past).answer r).1

/-- The request starts at a frame that is there. -/
def Admits (s : Forest α) (r : Request α) : Prop :=
  ∀ f ∈ r.frame?, f < s.frames.next

/-- Each of the requests started at a frame that was there. -/
def Possible : List (Request α) → Prop
  | [] => True
  | r :: past => Possible past ∧ (after past).Admits r

instance (s : Forest α) (r : Request α) : Decidable (s.Admits r) :=
  inferInstanceAs (Decidable (∀ f ∈ r.frame?, f < s.frames.next))

instance : (past : List (Request α)) → Decidable (Possible past)
  | [] => .isTrue trivial
  | r :: past =>
    have := instDecidablePossible past
    inferInstanceAs (Decidable (Possible past ∧ (after past).Admits r))

/-- Frame `f` was added directly under `g`. -/
inductive Encloses : List (Request α) → FrameId → FrameId → Prop
  | added {past g f} (h : ((after past).answer (.child g)).2 = .frame f) :
    Encloses (.child g :: past) g f
  | before {past r g f} (h : Encloses past g f) : Encloses (r :: past) g f

/-- Frame `g` stands `d` hops outward from `f`. -/
inductive Hops (past : List (Request α)) : FrameId → ℕ → FrameId → Prop
  | here {f} : Hops past f 0 f
  | outward {f g h d} (hfirst : Encloses past g f) (hrest : Hops past g d h) : Hops past f (d + 1) h

/-- Frame `g`, which stands `d` hops outward from `f`, is the first on the way outward that binds
the name. -/
structure Nearest (past : List (Request α)) (f : FrameId) (name : String) (d : ℕ) (g : FrameId) :
    Prop where
  hops : Hops past f d g
  binds : ((after past).own? g name).isSome
  first : ∀ d' < d, ∀ h, Hops past f d' h → (after past).own? h name = none

variable {past : List (Request α)} {r : Request α} {s : Forest α} {f g h : FrameId} {d : ℕ}
  {name : String} {a : α}

/-! ### The frame that a request finds -/

/-- A forest in which a variable of one frame is written. -/
def write (s : Forest α) (f : FrameId) (name : String) (a : α) : Forest α :=
  { s with frames := s.frames.write f name a }

/-- The answer to a request to read, from the frame that it finds. -/
def readIn (s : Forest α) (x : Token) (holder : Option FrameId) : Forest α × Reply α :=
  (s, replyFound x (holder.bind (s.own? · x.lexeme)))

/-- The answer to a request to overwrite, from the frame that it finds. -/
def overwriteIn (s : Forest α) (x : Token) (a : α) : Option FrameId → Forest α × Reply α
  | some g => (s.write g x.lexeme a, .written)
  | none => (s, .failed (undefined x))

lemma replaceBy_eq (x : Token) (holder : Option FrameId) :
    s.replaceBy x ((holder.map (s.frames.write · x.lexeme a)).map fun frames => { s with frames }) =
      s.overwriteIn x a holder := by
  cases holder <;> rfl

lemma answer_get (x : Token) :
    s.answer (.get f x) = s.readIn x (s.frames.holder? (s.env f) x.lexeme) := rfl

lemma answer_getAt (x : Token) :
    s.answer (.getAt f d x) = s.readIn x (s.frames.holderAt? (s.env f) d x.lexeme) :=
  congrArg (fun found => (s, replyFound x found)) (s.frames.getAt?_eq ..)

lemma answer_assign (x : Token) :
    s.answer (.assign f x a) = s.overwriteIn x a (s.frames.holder? (s.env f) x.lexeme) :=
  replaceBy_eq ..

lemma answer_assignAt (x : Token) :
    s.answer (.assignAt f d x a) = s.overwriteIn x a (s.frames.holderAt? (s.env f) d x.lexeme) :=
  replaceBy_eq ..

lemma answer_define (hf : (s.env f)[0]? = some f) :
    s.answer (.define f name a) = (s.write f name a, .written) := by
  refine congrArg (fun s' => (s', Reply.written)) (?_ : s.define f name a = s.write f name a)
  unfold define
  cases henv : s.env f with
  | nil => simp [henv] at hf
  | cons g env =>
    obtain rfl : g = f := by simpa [henv] using hf
    rfl

/-! ### Environments -/

/-- The environment of each frame lists it and then what the frame around it lists. -/
structure Linked (past : List (Request α)) (s : Forest α) : Prop where
  size : s.envs.size = s.frames.next
  around : ∀ {f g}, Encloses past g f →
    g < s.frames.next ∧ f < s.frames.next ∧ s.env f = f :: s.env g
  alone : ∀ {f}, f < s.frames.next → (∀ g, ¬Encloses past g f) → s.env f = [f]

lemma encloses_cons (hr : ∀ f, r ≠ .child f) : Encloses (r :: past) g f ↔ Encloses past g f := by
  constructor
  · rintro (h | h)
    · exact absurd rfl (hr _)
    · exact h
  · exact .before

lemma encloses_child :
    Encloses (.child h :: past) g f ↔ g = h ∧ f = (after past).frames.next ∨ Encloses past g f := by
  constructor
  · rintro (⟨⟨⟩⟩ | hold)
    · exact .inl ⟨rfl, rfl⟩
    · exact .inr hold
  · rintro (⟨rfl, rfl⟩ | hold)
    · exact .added rfl
    · exact .before hold

lemma env_grow {around : Env} (h : s.envs.size = s.frames.next) :
    (s.grow around).env f = if f = s.frames.next then f :: around else s.env f := by
  unfold grow env
  rw [Array.getElem?_push, h]
  split <;> simp_all

lemma next_grow {around : Env} : (s.grow around).frames.next = s.frames.next + 1 :=
  Frames.next_push ..

lemma size_grow {around : Env} : (s.grow around).envs.size = s.envs.size + 1 :=
  Array.size_push ..

/-- A new frame that lies around no other and has at most one around it, of which the new
environment speaks. -/
lemma Linked.grow {around : Env} (hs : Linked past s)
    (hold : ∀ {f g}, f ≠ s.frames.next → (Encloses (r :: past) g f ↔ Encloses past g f))
    (hnew : ∀ {g}, Encloses (r :: past) g s.frames.next → g < s.frames.next ∧ around = s.env g)
    (halone : (∀ g, ¬Encloses (r :: past) g s.frames.next) → around = []) :
    Linked (r :: past) (s.grow around) := by
  have hlt : ∀ {f}, f < s.frames.next → (s.grow around).env f = s.env f := fun hf => by
    rw [env_grow hs.size, if_neg (Nat.ne_of_lt hf)]
  have henv : (s.grow around).env s.frames.next = s.frames.next :: around := by
    rw [env_grow hs.size, if_pos rfl]
  refine ⟨by rw [size_grow, next_grow, hs.size], fun {f g} h => ?_, fun {f} hf h => ?_⟩
  · rw [next_grow]
    by_cases hf : f = s.frames.next
    · subst hf
      obtain ⟨hg, rfl⟩ := hnew h
      exact ⟨Nat.lt_succ_of_lt hg, Nat.lt_succ_self _, by rw [henv, hlt hg]⟩
    · obtain ⟨hg, hf, heq⟩ := hs.around ((hold hf).mp h)
      exact ⟨Nat.lt_succ_of_lt hg, Nat.lt_succ_of_lt hf, by rw [hlt hf, hlt hg, heq]⟩
  · by_cases hfnext : f = s.frames.next
    · subst hfnext
      rw [henv, halone h]
    · rw [next_grow] at hf
      replace hf := Nat.lt_of_le_of_ne (Nat.le_of_lt_succ hf) hfnext
      rw [hlt hf]
      exact hs.alone hf fun g hg => h g ((hold hfnext).mpr hg)

/-- A request that adds no frame keeps the environments. -/
lemma answer_kept (hroot : r ≠ .root) (hchild : ∀ f, r ≠ .child f) :
    (s.answer r).1.envs = s.envs ∧ (s.answer r).1.frames.next = s.frames.next := by
  have hoverwrite : ∀ x a holder, (s.overwriteIn x a holder).1.envs = s.envs ∧
      (s.overwriteIn x a holder).1.frames.next = s.frames.next := by
    intro x a holder
    cases holder with
    | some g => exact ⟨rfl, Frames.next_write ..⟩
    | none => exact ⟨rfl, rfl⟩
  cases r with
  | root => exact absurd rfl hroot
  | child f => exact absurd rfl (hchild f)
  | define f name a =>
    refine ⟨rfl, ?_⟩
    cases henv : s.env f <;> simp [answer, define, Frames.define, henv]
  | own | get | getAt => exact ⟨rfl, rfl⟩
  | assign f x a => exact answer_assign x ▸ hoverwrite ..
  | assignAt f d x a => exact answer_assignAt x ▸ hoverwrite ..

lemma Linked.kept {s' : Forest α} (hs : Linked past s) (henvs : s'.envs = s.envs)
    (hnext : s'.frames.next = s.frames.next) (hr : ∀ f, r ≠ .child f) : Linked (r :: past) s' := by
  have henv : s'.env = s.env := by
    funext f
    rw [env, env, henvs]
  refine ⟨by rw [henvs, hnext, hs.size], fun hf => ?_, fun hf h => ?_⟩
  · rw [hnext, henv]
    exact hs.around ((encloses_cons hr).mp hf)
  · rw [henv]
    exact hs.alone (hnext ▸ hf) fun g hg => h g ((encloses_cons hr).mpr hg)

theorem linked_after (h : Possible past) : Linked past (after past) := by
  induction past with
  | nil => exact ⟨rfl, nofun, nofun⟩
  | cons r past ih =>
    obtain ⟨hpast, hr⟩ := h
    replace ih := ih hpast
    have hfresh : ∀ g, ¬Encloses past g (after past).frames.next := fun g hg =>
      Nat.lt_irrefl _ (ih.around hg).2.1
    by_cases hroot : r = .root
    · subst hroot
      have hold : ∀ {f g}, Encloses (.root :: past) g f ↔ Encloses past g f := encloses_cons nofun
      exact ih.grow (fun _ => hold) (fun hg => absurd (hold.mp hg) (hfresh _)) fun _ => rfl
    · by_cases hchild : ∃ f, r = .child f
      · obtain ⟨f, rfl⟩ := hchild
        refine ih.grow (fun hf => ?_) (fun hg => ?_) fun hnone => ?_
        · simp [encloses_child, hf]
        · obtain ⟨rfl, -⟩ | hg := encloses_child.mp hg
          · exact ⟨hr _ rfl, rfl⟩
          · exact absurd hg (hfresh _)
        · exact absurd (.added rfl) (hnone f)
      · have hchild : ∀ f, r ≠ .child f := fun f hf => hchild ⟨f, hf⟩
        obtain ⟨henvs, hnext⟩ := answer_kept hroot hchild (s := after past)
        exact ih.kept henvs hnext hchild

/-! ### Look-ups -/

/-- An environment lists just the frames that stand so many hops outward. -/
theorem hops_iff (h : Possible past) (hf : f < (after past).frames.next) :
    Hops past f d g ↔ ((after past).env f)[d]? = some g := by
  have hs := linked_after h
  induction d generalizing f with
  | zero =>
    have hhead : ((after past).env f)[0]? = some f := by
      by_cases haround : ∃ g, Encloses past g f
      · obtain ⟨g, hg⟩ := haround
        rw [(hs.around hg).2.2]
        rfl
      · rw [hs.alone hf fun g hg => haround ⟨g, hg⟩]
        rfl
    rw [hhead]
    constructor
    · rintro ⟨⟩
      rfl
    · rintro ⟨⟩
      exact .here
  | succ d ih =>
    constructor
    · rintro (_ | ⟨hfirst, hrest⟩)
      obtain ⟨hg, -, henv⟩ := hs.around hfirst
      rw [henv]
      exact (ih hg).mp hrest
    · intro hd
      by_cases haround : ∃ g, Encloses past g f
      · obtain ⟨g', hg'⟩ := haround
        obtain ⟨hlt, -, henv⟩ := hs.around hg'
        rw [henv] at hd
        exact .outward hg' ((ih hlt).mpr hd)
      · rw [hs.alone hf fun g hg => haround ⟨g, hg⟩] at hd
        cases hd

lemma not_binds_iff : ¬s.frames.binds name g ↔ s.own? g name = none :=
  Option.not_isSome_iff_eq_none

lemma holderAt?_eq_some (h : Possible past) (hf : f < (after past).frames.next) :
    (after past).frames.holderAt? ((after past).env f) d name = some g ↔
      Hops past f d g ∧ ((after past).own? g name).isSome :=
  Option.filter_eq_some_iff.trans (and_congr_left fun _ => (hops_iff h hf).symm)

lemma holderAt?_eq_none (h : Possible past) (hf : f < (after past).frames.next) :
    (after past).frames.holderAt? ((after past).env f) d name = none ↔
      ∀ g, Hops past f d g → (after past).own? g name = none := by
  rw [Option.eq_none_iff_forall_ne_some]
  simp only [ne_eq, holderAt?_eq_some h hf, not_and, Option.not_isSome_iff_eq_none]

lemma holder?_eq_some (h : Possible past) (hf : f < (after past).frames.next) :
    (after past).frames.holder? ((after past).env f) name = some g ↔
      ∃ d, Nearest past f name d g := by
  unfold Frames.holder?
  rw [List.find?_eq_some_iff_getElem]
  constructor
  · rintro ⟨hbinds, d, hd, hg, hfirst⟩
    refine ⟨d, (hops_iff h hf).mpr (List.getElem?_eq_some_iff.mpr ⟨hd, hg⟩), hbinds, ?_⟩
    intro d' hd' g' hg'
    obtain ⟨hlt, rfl⟩ := List.getElem?_eq_some_iff.mp ((hops_iff h hf).mp hg')
    exact not_binds_iff.mp (by simpa using hfirst d' hd')
  · rintro ⟨d, hhops, hbinds, hfirst⟩
    obtain ⟨hd, rfl⟩ := List.getElem?_eq_some_iff.mp ((hops_iff h hf).mp hhops)
    refine ⟨hbinds, d, hd, rfl, fun d' hd' => ?_⟩
    have hhops' : Hops past f d' ((after past).env f)[d'] :=
      (hops_iff h hf).mpr (List.getElem?_eq_getElem _)
    simpa using not_binds_iff.mpr (hfirst d' hd' _ hhops')

lemma holder?_eq_none (h : Possible past) (hf : f < (after past).frames.next) :
    (after past).frames.holder? ((after past).env f) name = none ↔
      ∀ d g, Hops past f d g → (after past).own? g name = none := by
  unfold Frames.holder?
  rw [List.find?_eq_none]
  constructor
  · intro hnone d g hg
    have hmem := List.mem_of_getElem? ((hops_iff h hf).mp hg)
    exact not_binds_iff.mp (hnone g hmem)
  · intro hnone g hg
    obtain ⟨d, hd⟩ := List.getElem?_of_mem hg
    exact not_binds_iff.mpr (hnone d g ((hops_iff h hf).mpr hd))

end Forest

end Lox
