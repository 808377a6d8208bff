import Mathlib.Data.List.Forall2
import Mathlib.Tactic.Common
import Lox.Frames

/-!
Tables and frames whose values are replaced one by one.

Names and the order of frames stay, so that everything is found where it was found before. Where
names are replaced too, everything is found under its other name.
-/

namespace Lox

variable {α β γ : Type}

namespace Table

def mapValues (f : α → β) (t : Table α) : Table β := t.map (Prod.map id f)

variable {f : α → β} {t : Table α} {name : String}

lemma get?_mapValues : (t.mapValues f).get? name = (t.get? name).map f := by
  induction t with
  | nil => rfl
  | cons p t ih =>
    obtain ⟨n, a⟩ := p
    by_cases h : n = name
    · simp [mapValues, get?, h]
    · simpa [mapValues, get?, h] using ih

lemma insert_mapValues {a : α} :
    (t.mapValues f).insert name (f a) = (t.insert name a).mapValues f := by
  induction t with
  | nil => rfl
  | cons p t ih =>
    obtain ⟨n, b⟩ := p
    by_cases h : n = name
    · simp [mapValues, insert, h]
    · simpa [mapValues, insert, h] using ih

lemma ofList_map (pairs : List (String × α)) :
    ofList (pairs.map (Prod.map id f)) = (ofList pairs).mapValues f := by
  have hfold : ∀ (pairs : List (String × α)) (t : Table α),
      (pairs.map (Prod.map id f)).foldl (fun t p => t.insert p.1 p.2) (t.mapValues f) =
        mapValues f (pairs.foldl (fun t p => t.insert p.1 p.2) t) := by
    intro pairs
    induction pairs with
    | nil => exact fun _ => rfl
    | cons p pairs ih =>
      intro t
      refine Eq.trans ?_ (ih (t.insert p.1 p.2))
      rw [List.map_cons, List.foldl_cons, ← insert_mapValues]
      rfl
  exact hfold pairs []

lemma mapValues_mapValues {g : β → γ} : (t.mapValues f).mapValues g = t.mapValues (g ∘ f) :=
  List.map_map ..

lemma mapValues_congr {g : α → β} (h : ∀ a, f a = g a) : t.mapValues f = t.mapValues g :=
  congrArg t.mapValues (funext h)

/-! ### Other names -/

lemma rel_mono {R S : α → β → Prop} (h : ∀ a b, R a b → S a b) {a : Option α} {b : Option β}
    (hab : Option.Rel R a b) : Option.Rel S a b := by
  cases hab with
  | none => exact .none
  | some hab => exact .some (h _ _ hab)

lemma rel_self {R : α → α → Prop} {a : Option α} (h : ∀ x, a = some x → R x x) :
    Option.Rel R a a := by
  cases a with
  | none => exact .none
  | some x => exact .some (h x rfl)

/-- The second table has the entries of the first one in the same order, under other names and with
values that are related to the first ones. -/
def Like (f : String → String) (R : α → β → Prop) (t : Table α) (t' : Table β) : Prop :=
  List.Forall₂ (fun p p' => p'.1 = f p.1 ∧ R p.2 p'.2) t t'

section
variable {f : String → String} {R : α → β → Prop} {t : Table α} {t' : Table β}

lemma Like.get? (h : Like f R t t') (hf : Function.Injective f) (name : String) :
    Option.Rel R (t.get? name) (t'.get? (f name)) := by
  induction h with
  | nil => exact .none
  | @cons p p' t t' hp _ ih =>
    obtain ⟨n, a⟩ := p
    obtain ⟨n', a'⟩ := p'
    obtain ⟨rfl, ha⟩ : n' = f n ∧ R a a' := hp
    unfold Table.get?
    by_cases hn : n = name
    · rw [if_pos hn, if_pos (congrArg f hn)]
      exact .some ha
    · rw [if_neg hn, if_neg (hf.ne hn)]
      exact ih

lemma Like.insert (h : Like f R t t') (hf : Function.Injective f) (name : String) {a : α} {a' : β}
    (ha : R a a') : Like f R (t.insert name a) (t'.insert (f name) a') := by
  induction h with
  | nil => exact .cons ⟨rfl, ha⟩ .nil
  | @cons p p' t t' hp ht ih =>
    obtain ⟨n, b⟩ := p
    obtain ⟨n', b'⟩ := p'
    obtain ⟨rfl, hb⟩ : n' = f n ∧ R b b' := hp
    unfold Table.insert
    by_cases hn : n = name
    · rw [if_pos hn, if_pos (congrArg f hn)]
      exact .cons ⟨rfl, ha⟩ ht
    · rw [if_neg hn, if_neg (hf.ne hn)]
      exact .cons ⟨rfl, hb⟩ ih

lemma like_ofList {pairs : List (String × α)} {pairs' : List (String × β)}
    (h : List.Forall₂ (fun p p' => p'.1 = f p.1 ∧ R p.2 p'.2) pairs pairs')
    (hf : Function.Injective f) : Like f R (ofList pairs) (ofList pairs') := by
  have hfold : ∀ (t : Table α) (t' : Table β), Like f R t t' →
      Like f R (pairs.foldl (fun t p => t.insert p.1 p.2) t)
        (pairs'.foldl (fun t p => t.insert p.1 p.2) t') := by
    induction h with
    | nil => exact fun _ _ ht => ht
    | @cons p p' _ _ hp _ ih =>
      intro t t' ht
      obtain ⟨n, a⟩ := p
      obtain ⟨n', a'⟩ := p'
      obtain ⟨rfl, ha⟩ : n' = f n ∧ R a a' := hp
      exact ih _ _ (ht.insert hf n ha)
  exact hfold [] [] .nil

end

end Table

/-- An entry is changed before or after all are replaced. -/
lemma modify_map (xs : Array α) (i : ℕ) (g : α → β) (f : α → α) (f' : β → β)
    (h : ∀ a, f' (g a) = g (f a)) : (xs.map g).modify i f' = (xs.modify i f).map g := by
  apply Array.ext_getElem?
  intro j
  rw [Array.getElem?_modify, Array.getElem?_map, Array.getElem?_map, Array.getElem?_modify]
  split
  · cases xs[j]? with
    | none => rfl
    | some a => exact congrArg some (h a)
  · rfl

namespace Frames

def mapValues (f : α → β) (s : Frames α) : Frames β := ⟨s.tables.map (Table.mapValues f)⟩

variable {f : α → β} {s : Frames α} {env : Env} {name : String} {g : FrameId}

@[simp] lemma next_mapValues : (s.mapValues f).next = s.next := Array.size_map ..

@[simp] lemma mapValues_empty : (empty : Frames α).mapValues f = empty :=
  congrArg mk Array.map_empty

lemma push_mapValues {t : Table α} :
    (s.mapValues f).push (t.mapValues f) = (s.push t).mapValues f :=
  congrArg mk (Array.map_push ..).symm

lemma own?_mapValues : (s.mapValues f).own? g name = (s.own? g name).map f := by
  unfold own? mapValues
  rw [Array.getElem?_map]
  cases s.tables[g]? with
  | none => rfl
  | some t => exact Table.get?_mapValues

lemma write_mapValues {a : α} :
    (s.mapValues f).write g name (f a) = (s.write g name a).mapValues f :=
  congrArg mk (modify_map s.tables g (Table.mapValues f) (Table.insert · name a)
    (Table.insert · name (f a)) fun _ => Table.insert_mapValues)

lemma define_mapValues {a : α} :
    (s.mapValues f).define env name (f a) = (s.define env name a).mapValues f := by
  cases env with
  | nil => rfl
  | cons g env => exact write_mapValues

lemma binds_mapValues : (s.mapValues f).binds name = s.binds name := by
  funext g
  rw [binds, own?_mapValues, Option.isSome_map, binds]

@[simp] lemma holder?_mapValues : (s.mapValues f).holder? env name = s.holder? env name := by
  rw [holder?, binds_mapValues, holder?]

@[simp] lemma holderAt?_mapValues {d : ℕ} :
    (s.mapValues f).holderAt? env d name = s.holderAt? env d name := by
  rw [holderAt?, binds_mapValues, holderAt?]

lemma get?_mapValues : (s.mapValues f).get? env name = (s.get? env name).map f := by
  rw [get?, holder?_mapValues, get?]
  cases s.holder? env name with
  | none => rfl
  | some g => exact own?_mapValues

lemma getAt?_mapValues {d : ℕ} :
    (s.mapValues f).getAt? env d name = (s.getAt? env d name).map f := by
  rw [getAt?, getAt?]
  cases env[d]? with
  | none => rfl
  | some g => exact own?_mapValues

end Frames

end Lox
