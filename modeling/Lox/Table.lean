/-!
Tables from names to values, as association lists in order of first insertion.

Inserting under a name that is present replaces the value in place, so that a name stands in a
table once and `get?` after `insert` is a matter of names alone.
-/

namespace Lox

/-- A finite map from names, in order of first insertion. -/
abbrev Table (α : Type) := List (String × α)

namespace Table

variable {α : Type}

def get? (t : Table α) (name : String) : Option α :=
  match t with
  | [] => none
  | (n, a) :: t => if n = name then some a else get? t name

def contains (t : Table α) (name : String) : Bool :=
  (t.get? name).isSome

def insert (t : Table α) (name : String) (a : α) : Table α :=
  match t with
  | [] => [(name, a)]
  | (n, b) :: t => if n = name then (name, a) :: t else (n, b) :: insert t name a

/-- Inserts the pairs from left to right, so that the last pair of a name counts. -/
def ofList (pairs : List (String × α)) : Table α :=
  pairs.foldl (fun t (n, a) => t.insert n a) []

@[simp] theorem get?_nil (name : String) : get? ([] : Table α) name = none := rfl

theorem get?_insert (t : Table α) (name : String) (a : α) (other : String) :
    (t.insert name a).get? other = if name = other then some a else t.get? other := by
  induction t with
  | nil => rfl
  | cons p t ih =>
    obtain ⟨n, b⟩ := p
    by_cases hn : n = name
    · subst hn; by_cases ho : n = other <;> simp [insert, get?, ho]
    · by_cases ho : n = other
      · subst ho; simp [insert, get?, hn, Ne.symm hn]
      · simp [insert, get?, hn, ho, ih]

theorem get?_insert_self (t : Table α) (name : String) (a : α) :
    (t.insert name a).get? name = some a := by
  simp [get?_insert]

end Table

end Lox
