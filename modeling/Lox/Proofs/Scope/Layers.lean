import Mathlib.Data.List.Nodup
import Lox.Proofs.Scope.Lines
import Lox.Proofs.Scope.Rooms

/-!
What becomes of the layers of a survey.

All that happens to a layer while it is open is that locals are added at its end and that some are
read. When a local is read does not matter, only whether it is.
-/

namespace Lox

namespace Table

variable {α : Type} {t : Table α} {name : String} {a b : α}

lemma insert_of_get?_eq_none (h : t.get? name = none) : t.insert name a = t ++ [(name, a)] := by
  induction t with
  | nil => rfl
  | cons p t ih =>
    obtain ⟨n, c⟩ := p
    by_cases hn : n = name
    · simp [get?, hn] at h
    · simp only [get?, hn, if_false] at h
      simp [insert, hn, ih h]

lemma insert_append_of_get?_eq_none (h : t.get? name = none) :
    (t ++ [(name, b)]).insert name a = t ++ [(name, a)] := by
  induction t with
  | nil => simp [insert]
  | cons p t ih =>
    obtain ⟨n, c⟩ := p
    by_cases hn : n = name
    · simp [get?, hn] at h
    · simp only [get?, hn, if_false] at h
      simp [insert, hn, ih h]

lemma get?_append_self (h : t.get? name = none) : get? (t ++ [(name, b)]) name = some b := by
  rw [← insert_of_get?_eq_none h, get?_insert_self]

lemma mem_of_get? (h : t.get? name = some a) : (name, a) ∈ t := by
  induction t with
  | nil => exact nomatch h
  | cons p t ih =>
    obtain ⟨n, c⟩ := p
    by_cases hn : n = name
    · obtain rfl : c = a := by simpa [get?, hn] using h
      exact hn ▸ List.mem_cons_self ..
    · simp only [get?, hn, if_false] at h
      exact List.mem_cons_of_mem _ (ih h)

/-- A value that stands there already. -/
lemma insert_self (h : t.get? name = some a) : t.insert name a = t := by
  induction t with
  | nil => exact nomatch h
  | cons p t ih =>
    obtain ⟨n, c⟩ := p
    by_cases hn : n = name
    · obtain rfl : c = a := by simpa [get?, hn] using h
      simp [insert, hn]
    · simp only [get?, hn, if_false] at h
      simp [insert, hn, ih h]

lemma contains_iff : t.contains name ↔ name ∈ t.map Prod.fst := by
  unfold contains
  induction t with
  | nil => simp
  | cons p t ih =>
    obtain ⟨n, c⟩ := p
    by_cases hn : n = name
    · simp [get?, hn]
    · simp only [get?, hn, if_false, ih, List.map_cons, List.mem_cons, Ne.symm hn, false_or]

end Table

namespace Scope

/-! ### One layer -/

/-- A local that has a value and has not been read. -/
def asLocal (t : Token) : String × Local := (t.lexeme, ⟨t, .defined⟩)

namespace Layer

variable {l : Layer} {P Q : String → Prop} {name : String} {t : Token}

open Classical in
/-- The locals with some names have been read. -/
noncomputable def reading (P : String → Prop) (l : Layer) : Layer :=
  l.map fun p => if P p.1 then (p.1, { p.2 with status := .read }) else p

lemma reading_eq_self (h : ∀ p ∈ l, ¬P p.1) : l.reading P = l := by
  refine (List.map_congr_left fun p hp => ?_).trans (List.map_id l)
  rw [if_neg (h p hp)]
  rfl

lemma reading_append (l l' : Layer) : (l ++ l').reading P = l.reading P ++ l'.reading P :=
  List.map_append

lemma reading_reading (l : Layer) :
    (l.reading P).reading Q = l.reading fun name => P name ∨ Q name := by
  unfold reading
  rw [List.map_map]
  refine List.map_congr_left fun p _ => ?_
  by_cases hP : P p.1 <;> by_cases hQ : Q p.1 <;> simp [hP, hQ]

lemma keys_reading (l : Layer) : (l.reading P).map Prod.fst = l.map Prod.fst := by
  unfold reading
  rw [List.map_map]
  refine List.map_congr_left fun p _ => ?_
  by_cases hP : P p.1 <;> simp [hP]

open Classical in
lemma get?_reading (l : Layer) : (l.reading P).get? name =
    (l.get? name).map fun v => if P name then { v with status := .read } else v := by
  induction l with
  | nil => rfl
  | cons p l ih =>
    obtain ⟨n, v⟩ := p
    unfold reading at ih ⊢
    by_cases hn : n = name
    · subst hn
      by_cases hP : P n <;> simp [Table.get?, hP]
    · by_cases hP : P n <;> simp [Table.get?, hP, hn, ih]

lemma contains_reading (l : Layer) : (l.reading P).contains name = l.contains name := by
  unfold Table.contains
  rw [get?_reading, Option.isSome_map]

lemma contains_of_status? {st : Status} (h : l.status? name = some st) : l.contains name := by
  obtain ⟨v, hv, -⟩ := Option.map_eq_some_iff.mp h
  rw [Table.contains, hv]
  rfl

lemma status?_reading (l : Layer) : (l.reading P).status? name = some .declared ↔
    l.status? name = some .declared ∧ ¬P name := by
  unfold status?
  rw [get?_reading]
  cases l.get? name with
  | none => simp
  | some v => by_cases hP : P name <;> simp [hP]

lemma forall_mem_reading {R : String × Local → Prop} (hl : ∀ p ∈ l, R p)
    (hR : ∀ p, R p → R (p.1, { p.2 with status := .read })) : ∀ p ∈ l.reading P, R p := by
  intro p hp
  obtain ⟨q, hq, rfl⟩ := List.mem_map.mp hp
  dsimp only
  split
  · exact hR q (hl q hq)
  · exact hl q hq

lemma keys_append_asLocal (l : Layer) (ts : List Token) :
    (l ++ ts.map asLocal).map Prod.fst = l.map Prod.fst ++ ts.map (·.lexeme) := by
  rw [List.map_append, List.map_map]
  rfl

/-- A layer in which no name stands twice and in which `this` need not be read. -/
structure Neat (l : Layer) : Prop where
  keys : (l.map Prod.fst).Nodup
  this : ∀ p ∈ l, p.1 = "this" → p.2.status = .read

lemma Neat.reading (h : l.Neat) : (l.reading P).Neat where
  keys := by rw [keys_reading]; exact h.keys
  this := forall_mem_reading h.this fun _ _ _ => rfl

lemma Neat.append {l' : Layer} (h : l.Neat) (hkeys : (l'.map Prod.fst).Nodup)
    (hnew : ∀ p ∈ l', ¬l.contains p.1) (hthis : ∀ p ∈ l', p.1 ≠ "this") : Neat (l ++ l') where
  keys := by
    rw [List.map_append, List.nodup_append]
    refine ⟨h.keys, hkeys, ?_⟩
    rintro _ hl _ hl' rfl
    obtain ⟨p, hp, hname⟩ := List.mem_map.mp hl'
    exact hnew p hp (Table.contains_iff.mpr (hname ▸ hl))
  this := List.forall_mem_append.mpr ⟨h.this, fun p hp hname => absurd hname (hthis p hp)⟩

lemma mark_read (h : (l.map Prod.fst).Nodup) : l.mark name .read = l.reading (· = name) := by
  induction l with
  | nil => rfl
  | cons p l ih =>
    obtain ⟨n, v⟩ := p
    obtain ⟨hn, hl⟩ := List.nodup_cons.mp h
    by_cases heq : n = name
    · subst heq
      have htail : reading (· = n) l = l :=
        reading_eq_self fun p hp hp' => hn (List.mem_map.mpr ⟨p, hp, hp'⟩)
      calc mark ((n, v) :: l) n .read
          = (n, { v with status := .read }) :: l := by simp [mark, Table.get?, Table.insert]
        _ = (n, { v with status := .read }) :: reading (· = n) l := by rw [htail]
        _ = reading (· = n) ((n, v) :: l) := by simp [reading]
    · have hcons : mark ((n, v) :: l) name .read = (n, v) :: mark l name .read := by
        unfold mark
        simp only [Table.get?, heq, if_false]
        cases Table.get? l name <;> simp [Table.insert, heq]
      rw [hcons, ih hl]
      simp [reading, heq]

/-- There is nothing to note where `this` is read. -/
lemma Neat.mark_this (h : l.Neat) : l.mark "this" .read = l := by
  unfold mark
  cases hv : l.get? "this" with
  | none => rfl
  | some v =>
    refine Table.insert_self (hv.trans (congrArg some ?_))
    rw [← h.this _ (Table.mem_of_get? hv) rfl]

/-- What becomes of a layer where a name gets its value. -/
def settle (l : Layer) (name : String) : Layer :=
  if l.status? name = some .declared then l.mark name .defined else l

lemma contains_settle (l : Layer) (other : String) :
    (l.settle other).contains name = l.contains name := by
  unfold settle
  split
  · exact Survey.contains_mark
  · rfl

lemma settle_reading (hl : ∀ p ∈ l, p.2.status ≠ .declared) :
    (l.reading P).settle name = l.reading P := by
  refine if_neg fun hname => ?_
  obtain ⟨v, hv, hstatus⟩ := Option.map_eq_some_iff.mp ((status?_reading l).mp hname).1
  exact hl _ (Table.mem_of_get? hv) hstatus

/-- A local that is declared, maybe read, and then gets its value. -/
lemma settle_reading_declare (ht : l.get? t.lexeme = none) :
    ((l.declare t).reading P).settle t.lexeme = (l ++ [asLocal t]).reading P := by
  have hdeclare : l.declare t = l ++ [(t.lexeme, ⟨t, .declared⟩)] :=
    Table.insert_of_get?_eq_none ht
  have hread : (l.reading P).get? t.lexeme = none := by rw [get?_reading, ht, Option.map_none]
  have hstatus : (l.declare t).status? t.lexeme = some .declared := by
    rw [hdeclare, status?, Table.get?_append_self ht, Option.map_some]
  have hwaits : ((l.declare t).reading P).status? t.lexeme = some .declared ↔ ¬P t.lexeme :=
    (status?_reading _).trans (and_iff_right hstatus)
  unfold settle
  by_cases hP : P t.lexeme
  · rw [if_neg (hwaits.not.mpr (not_not.mpr hP)), hdeclare, reading_append, reading_append]
    simp [reading, asLocal, hP]
  · have hnew : ∀ st, reading P [(t.lexeme, ⟨t, st⟩)] = [(t.lexeme, ⟨t, st⟩)] := fun st =>
      reading_eq_self fun p hp => (List.mem_singleton.mp hp).symm ▸ hP
    rw [if_pos (hwaits.mpr hP), hdeclare, reading_append, reading_append, hnew, mark,
      Table.get?_append_self hread, asLocal, hnew]
    exact Table.insert_append_of_get?_eq_none hread

end Layer

/-! ### All layers -/

/-- Some names have been read in the layers, each in a layer of some height. The outermost layer
has height one. -/
noncomputable def readingAll (P : ℕ → String → Prop) : List Layer → List Layer
  | [] => []
  | l :: ls => l.reading (P (ls.length + 1)) :: readingAll P ls

/-- Locals are added to the innermost layer. At the top level there is none. -/
def growing (ts : List Token) : List Layer → List Layer
  | [] => []
  | l :: ls => (l ++ ts.map asLocal) :: ls

/-- A layer of some height has a name. -/
def Knows : List Layer → ℕ → String → Prop
  | [], _, _ => False
  | l :: ls, h, name => h = ls.length + 1 ∧ l.contains name ∨ Knows ls h name

section
variable {P Q : ℕ → String → Prop} {ts us : List Token} {l : Layer} {ls : List Layer} {h : ℕ}
  {name : String}

@[simp] lemma length_readingAll (P : ℕ → String → Prop) (ls : List Layer) :
    (readingAll P ls).length = ls.length := by
  induction ls with
  | nil => rfl
  | cons l ls ih => simp [readingAll, ih]

@[simp] lemma length_growing (ts : List Token) (ls : List Layer) :
    (growing ts ls).length = ls.length := by
  cases ls <;> rfl

@[simp] lemma growing_nil (ls : List Layer) : growing [] ls = ls := by
  cases ls <;> simp [growing]

lemma growing_growing (ts us : List Token) (ls : List Layer) :
    growing us (growing ts ls) = growing (ts ++ us) ls := by
  cases ls <;> simp [growing]

lemma readingAll_congr (hPQ : ∀ h ≤ ls.length, ∀ name, P h name ↔ Q h name) :
    readingAll P ls = readingAll Q ls := by
  induction ls with
  | nil => rfl
  | cons l ls ih =>
    have hhead : P (ls.length + 1) = Q (ls.length + 1) := funext fun name =>
      propext (hPQ _ le_rfl name)
    rw [readingAll, readingAll, hhead, ih fun h hh => hPQ h (Nat.le_succ_of_le hh)]

lemma readingAll_eq_self (hP : ∀ h ≤ ls.length, ∀ name, ¬P h name) : readingAll P ls = ls := by
  induction ls with
  | nil => rfl
  | cons l ls ih =>
    rw [readingAll, ih fun h hh => hP h (Nat.le_succ_of_le hh),
      Layer.reading_eq_self fun p _ => hP (ls.length + 1) le_rfl p.1]

lemma forall_readingAll {R : Layer → Prop} (hls : ∀ l ∈ ls, R l)
    (hR : ∀ l P, R l → R (l.reading P)) : ∀ l ∈ readingAll P ls, R l := by
  induction ls with
  | nil => exact hls
  | cons l ls ih =>
    obtain ⟨hl, hls⟩ := List.forall_mem_cons.mp hls
    exact List.forall_mem_cons.mpr ⟨hR l _ hl, ih hls⟩

lemma readingAll_readingAll (P Q : ℕ → String → Prop) (ls : List Layer) :
    readingAll Q (readingAll P ls) = readingAll (fun h name => P h name ∨ Q h name) ls := by
  induction ls with
  | nil => rfl
  | cons l ls ih =>
    rw [readingAll, readingAll, readingAll, ih, length_readingAll, Layer.reading_reading]

/-- Locals that are added later have not been read before. -/
lemma growing_readingAll (hus : ∀ u ∈ us, ¬P ls.length u.lexeme) :
    growing us (readingAll P ls) = readingAll P (growing us ls) := by
  cases ls with
  | nil => rfl
  | cons l ls =>
    have hnew : Layer.reading (P (ls.length + 1)) (us.map asLocal) = us.map asLocal := by
      refine Layer.reading_eq_self fun p hp => ?_
      obtain ⟨u, hu, rfl⟩ := List.mem_map.mp hp
      exact hus u hu
    rw [readingAll, growing, growing, readingAll, Layer.reading_append, hnew]

lemma knows_le (hk : Knows ls h name) : h ≤ ls.length := by
  induction ls with
  | nil => exact hk.elim
  | cons l ls ih =>
    rcases hk with ⟨rfl, -⟩ | hk
    · exact le_rfl
    · exact (ih hk).trans (Nat.le_succ _)

lemma Knows.of_cons (hk : Knows (l :: ls) h name) (hh : h ≤ ls.length) : Knows ls h name := by
  rcases hk with ⟨rfl, -⟩ | hk
  · omega
  · exact hk

lemma Knows.contains (hk : Knows (l :: ls) (ls.length + 1) name) : l.contains name := by
  rcases hk with ⟨-, hk⟩ | hk
  · exact hk
  · exact absurd (knows_le hk) (by omega)

lemma knows_readingAll : Knows (readingAll P ls) h name ↔ Knows ls h name := by
  induction ls with
  | nil => rfl
  | cons l ls ih =>
    rw [readingAll, Knows, Knows, ih, length_readingAll, Layer.contains_reading]

lemma Knows.growing (hk : Knows ls h name) (ts : List Token) :
    Knows (growing ts ls) h name := by
  cases ls with
  | nil => exact hk
  | cons l ls =>
    rcases hk with ⟨rfl, hk⟩ | hk
    · refine .inl ⟨rfl, ?_⟩
      rw [Table.contains_iff] at hk ⊢
      rw [Layer.keys_append_asLocal]
      exact List.mem_append_left _ hk
    · exact .inr hk

end

end Scope
end Lox
