import Lox.Proofs.Forest.Chains

/-!
Access by name and at a distance.

A name may be looked for in each frame on the way outward, or in the one frame that stands so many
hops outward. The two come to the same frame if it is the nearest that binds the name, and
otherwise the second finds another variable, or none.
-/

namespace Lox.Forest

variable {α : Type} {past : List (Request α)} {s : Forest α} {f g : FrameId} {d : ℕ}

/-- The name is not found, and the forest stays as it is. -/
def Misses (s : Forest α) (x : Token) (r : Request α) : Prop :=
  s.answer r = (s, .failed (undefined x))

/-- The two requests for a variable at a distance, of which each would miss it. -/
def MissesAt (s : Forest α) (f : FrameId) (d : ℕ) (x : Token) : Prop :=
  s.Misses x (.getAt f d x) ∧ ∀ a, s.Misses x (.assignAt f d x a)

/-- At a distance at which no frame binds it, a name is missed. -/
lemma missesAt (h : Possible past) (hf : f < (after past).frames.next) {x : Token}
    (hnone : ∀ g, Hops past f d g → (after past).own? g x.lexeme = none) :
    (after past).MissesAt f d x := by
  have hmissed := (holderAt?_eq_none h hf).mpr hnone
  refine ⟨?_, fun a => ?_⟩
  · rw [Misses, answer_getAt, hmissed]
    rfl
  · rw [Misses, answer_assignAt, hmissed]
    rfl

/-- Access by name agrees with access at the distance of the nearest frame that binds the name:
both read the variable of this frame, and both overwrite it. At each smaller distance, and beyond
the root, access at a distance misses the name, and if no frame on the way outward binds it, then
every access does. -/
theorem access_by_name_agrees_at_distance (h : Possible past) (hf : f < (after past).frames.next)
    (x : Token) :
    let s := after past
    (∀ d g, Nearest past f x.lexeme d g →
      (∃ a, s.own? g x.lexeme = some a ∧ s.answer (.get f x) = (s, .value a) ∧
        s.answer (.getAt f d x) = (s, .value a)) ∧
      (∀ a, ∃ s', s.answer (.assign f x a) = (s', .written) ∧
        s.answer (.assignAt f d x a) = (s', .written)) ∧
      ∀ d' < d, s.MissesAt f d' x) ∧
    (∀ d, (∀ g, ¬Hops past f d g) → s.MissesAt f d x) ∧
    ((∀ d g, Hops past f d g → s.own? g x.lexeme = none) →
      s.Misses x (.get f x) ∧ (∀ a, s.Misses x (.assign f x a)) ∧ ∀ d, s.MissesAt f d x) := by
  intro s
  refine ⟨fun d g hnearest => ?_, fun d hbeyond => ?_, fun hnone => ?_⟩
  · -- either way of looking finds the same frame
    have hfound : s.frames.holder? (s.env f) x.lexeme = some g :=
      (holder?_eq_some h hf).mpr ⟨d, hnearest⟩
    have hfoundAt : s.frames.holderAt? (s.env f) d x.lexeme = some g :=
      (holderAt?_eq_some h hf).mpr ⟨hnearest.hops, hnearest.binds⟩
    obtain ⟨a, ha⟩ := Option.isSome_iff_exists.mp hnearest.binds
    have hread : s.readIn x (some g) = (s, .value a) := by
      change (s, replyFound x (s.own? g x.lexeme)) = _
      rw [ha]
      rfl
    refine ⟨⟨a, ha, ?_, ?_⟩, fun a => ⟨s.write g x.lexeme a, ?_, ?_⟩, fun d' hd' => ?_⟩
    · rw [answer_get, hfound, hread]
    · rw [answer_getAt, hfoundAt, hread]
    · rw [answer_assign, hfound]
      rfl
    · rw [answer_assignAt, hfoundAt]
      rfl
    · exact missesAt h hf (hnearest.first d' hd')
  · exact missesAt h hf fun g hg => absurd hg (hbeyond g)
  · have hmissed : s.frames.holder? (s.env f) x.lexeme = none := (holder?_eq_none h hf).mpr hnone
    refine ⟨?_, fun a => ?_, fun d => missesAt h hf (hnone d)⟩
    · rw [Misses, answer_get, hmissed]
      rfl
    · rw [Misses, answer_assign, hmissed]
      rfl

/-- A variable of the middle one of three frames that hides one of the outermost. -/
theorem access_by_name_agrees_at_distance_when_hidden :
    let past : List (Request ℕ) :=
      [.child 1, .define 1 "a" 2, .child 0, .define 0 "b" 3, .define 0 "a" 1, .root]
    let s := after past
    let a : Token := ⟨.identifier, "a", 1⟩
    let b : Token := ⟨.identifier, "b", 1⟩
    let c : Token := ⟨.identifier, "c", 1⟩
    Possible past ∧ 2 < s.frames.next ∧ Nearest past 2 "a" 1 1 ∧
      s.answer (.getAt 2 1 a) = s.answer (.get 2 a) ∧
      s.answer (.assignAt 2 1 a 4) = s.answer (.assign 2 a 4) ∧ s.MissesAt 2 0 a ∧
      s.MissesAt 2 3 b ∧ s.Misses c (.get 2 c) := by
  intro past s a b c
  have hpast : Possible past := by decide
  have hf : 2 < s.frames.next := by decide
  have henv : s.env 2 = [2, 1, 0] := by decide
  have hhops : ∀ d g, Hops past 2 d g ↔ [2, 1, 0][d]? = some g := fun d g =>
    henv ▸ hops_iff hpast hf
  have hnearest : Nearest past 2 "a" 1 1 := by
    refine ⟨(hhops 1 1).mpr rfl, by decide, fun d hd h hh => ?_⟩
    obtain rfl : d = 0 := Nat.lt_one_iff.mp hd
    cases hh
    decide
  have hnone : ∀ d g, Hops past 2 d g → s.own? g "c" = none := by
    intro d g hg
    have hall : ∀ g ∈ [2, 1, 0], s.own? g "c" = none := by decide
    exact hall g (List.mem_of_getElem? ((hhops d g).mp hg))
  obtain ⟨⟨v, -, hget, hgetAt⟩, hassign, hmisses⟩ :=
    (access_by_name_agrees_at_distance hpast hf a).1 1 1 hnearest
  obtain ⟨s', hbyName, hat⟩ := hassign 4
  refine ⟨hpast, hf, hnearest, hgetAt.trans hget.symm, hat.trans hbyName.symm,
    hmisses 0 Nat.one_pos, ?_, ?_⟩
  · refine (access_by_name_agrees_at_distance hpast hf b).2.1 3 fun g hg => ?_
    cases (hhops 3 g).mp hg
  · exact ((access_by_name_agrees_at_distance hpast hf c).2.2 hnone).1

end Lox.Forest
