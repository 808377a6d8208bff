import Lox.Proofs.Scope.Sites

/-!
The scopes that variables are declared in, and what there is to say about their names.

Such a scope, a room, is that of a block or that of the parameters and the body of a function. What
is wrong with the names of a room can be told from the tree: which of them are declared again, and
which are read nowhere. There is no room around the top level, and none for `this` alone.
-/

namespace Lox

mutual

/-- The variables that are read in an expression, in the order in which they are visited. -/
def Expr.reads : Expr → List Token
  | .literal _ => []
  | .group e => e.reads
  | .unary _ e => e.reads
  | .binary l _ r => l.reads ++ r.reads
  | .logical l _ r => l.reads ++ r.reads
  | .conditional c t e => c.reads ++ t.reads ++ e.reads
  | .reference _ name => [name]
  | .assign _ _ value => value.reads
  | .call callee _ arguments => callee.reads ++ Expr.readsOf arguments
  | .property object _ => object.reads
  | .setProperty object _ value => value.reads ++ object.reads
  | .this .. => []

def Expr.readsOf : List Expr → List Token
  | [] => []
  | e :: es => e.reads ++ Expr.readsOf es

end

/-- The variable that an expression itself reads. -/
def Expr.ownRead : Expr → List Token
  | reference _ name => [name]
  | _ => []

lemma Expr.reads_eq (e : Expr) : e.reads = readsOf e.parts ++ e.ownRead := by
  cases e <;> simp [reads, readsOf, parts, ownRead]

namespace Scope

open Enclosure

/-! ### Names seen before -/

/-- The tokens whose names have not been seen before. -/
def fresh (seen : List String) : List Token → List Token
  | [] => []
  | t :: ts => (if t.lexeme ∈ seen then [] else [t]) ++ fresh (seen ++ [t.lexeme]) ts

/-- The tokens whose names have been seen before. -/
def repeated (seen : List String) : List Token → List Token
  | [] => []
  | t :: ts => (if t.lexeme ∈ seen then [t] else []) ++ repeated (seen ++ [t.lexeme]) ts

section
variable (seen : List String) (ts us : List Token)

lemma fresh_append :
    fresh seen (ts ++ us) = fresh seen ts ++ fresh (seen ++ ts.map (·.lexeme)) us := by
  induction ts generalizing seen with
  | nil => simp [fresh]
  | cons t ts ih => simp [fresh, ih]

lemma repeated_append :
    repeated seen (ts ++ us) = repeated seen ts ++ repeated (seen ++ ts.map (·.lexeme)) us := by
  induction ts generalizing seen with
  | nil => simp [repeated]
  | cons t ts ih => simp [repeated, ih]

lemma fresh_subset : fresh seen ts ⊆ ts := by
  induction ts generalizing seen with
  | nil => exact List.Subset.refl _
  | cons t ts ih =>
    rw [fresh]
    refine List.append_subset.mpr ⟨?_, fun u hu => List.mem_cons_of_mem _ (ih _ hu)⟩
    split <;> simp

lemma not_mem_of_mem_fresh {t : Token} (h : t ∈ fresh seen ts) : t.lexeme ∉ seen := by
  induction ts generalizing seen with
  | nil => exact absurd h List.not_mem_nil
  | cons u us ih =>
    rw [fresh, List.mem_append] at h
    rcases h with h | h
    · split at h
      · exact absurd h List.not_mem_nil
      · obtain rfl := List.mem_singleton.mp h
        assumption
    · exact fun hseen => ih _ h (List.mem_append_left _ hseen)

lemma mem_names_fresh {name : String} : name ∈ seen ∨ name ∈ (fresh seen ts).map (·.lexeme) ↔
    name ∈ seen ++ ts.map (·.lexeme) := by
  induction ts generalizing seen with
  | nil => simp [fresh]
  | cons t ts ih =>
    have htail := ih (seen ++ [t.lexeme])
    rw [List.append_assoc, List.singleton_append] at htail
    rw [List.map_cons, ← htail, fresh, List.map_append, List.mem_append, ← or_assoc]
    refine or_congr_left ?_
    split <;> simp_all

lemma nodup_fresh : ((fresh seen ts).map (·.lexeme)).Nodup := by
  induction ts generalizing seen with
  | nil => exact List.nodup_nil
  | cons t ts ih =>
    rw [fresh, List.map_append, List.nodup_append]
    refine ⟨by split <;> simp, ih _, ?_⟩
    rintro _ hx _ hy rfl
    obtain ⟨u, hu, hlexeme⟩ := List.mem_map.mp hy
    have hnot := not_mem_of_mem_fresh _ _ hu
    have hx' : u.lexeme = t.lexeme := by
      split at hx <;> simp_all
    exact hnot (by simp [hx'])

/-- What is left of the first occurrences when more names have been seen. -/
lemma fresh_eq_filter (more : List String) :
    fresh (more ++ seen) ts = (fresh seen ts).filter (·.lexeme ∉ more) := by
  induction ts generalizing seen with
  | nil => rfl
  | cons t ts ih =>
    rw [fresh, fresh, List.append_assoc, ih, List.filter_append]
    by_cases hm : t.lexeme ∈ more <;> by_cases hs : t.lexeme ∈ seen <;> simp [hm, hs]

/-- The first occurrence of one name. -/
lemma filter_fresh (name : String) :
    (fresh [] ts).filter (·.lexeme = name) = (ts.filter (·.lexeme = name)).take 1 := by
  induction ts with
  | nil => rfl
  | cons t ts ih =>
    have htail := fresh_eq_filter [] ts [t.lexeme]
    rw [List.append_nil] at htail
    rw [fresh, List.nil_append, htail, if_neg List.not_mem_nil, List.filter_append,
      List.filter_filter]
    by_cases ht : t.lexeme = name
    · subst ht
      simp
    · simp only [List.filter_cons, ht, decide_false, Bool.false_eq_true, if_false, List.filter_nil,
        List.nil_append]
      rw [← ih]
      refine List.filter_congr fun u _ => ?_
      by_cases hu : u.lexeme = name
      · simp [hu, Ne.symm ht]
      · simp [hu]

end

/-- The variables that statements declare first, with the values they have from the beginning. -/
def initialized (seen : List String) : List Stmt → List (Token × Expr)
  | [] => []
  | d :: ds =>
    (match d with
      | .declare t (some e) => if t.lexeme ∈ seen then [] else [(t, e)]
      | _ => []) ++ initialized (seen ++ declaredIn [d]) ds

/-! ### Rooms -/

/-- The scope of a block, or that of the parameters and the body of a function. -/
structure Room where
  opener : Opener
  params : List Token
  body : List Stmt
  /-- The scopes around it. -/
  around : List Enclosure

/-- A variable is read at the place, and it is found in the scope that is the last but `height`,
counted from the outermost. -/
def Site.ReadsFrom (height : ℕ) (name : String) (p : Site) : Prop :=
  ∃ id t d, p.node = .expr (.reference id t) ∧ t.lexeme = name ∧
    distance? p.scopes name = some d ∧ p.scopes.length = d + height

namespace Room

/-- The body with its scopes. -/
def site (r : Room) : Site := ⟨.stmts r.body, ⟨r.opener, r.params.map (·.lexeme)⟩ :: r.around⟩

/-- The names declared directly in the room, in order. -/
def declared (r : Room) : List Token := r.params ++ r.body.filterMap (·.declared?)

/-- Somewhere in the room a variable is read that is found in the room itself. -/
def Reads (r : Room) (name : String) : Prop :=
  r.site.Somewhere (Site.ReadsFrom (r.around.length + 1) name)

open Classical in
/-- The first declarations of the names that are read nowhere. -/
noncomputable def unread (r : Room) : List Token :=
  (fresh [] r.declared).filter fun t => ¬r.Reads t.lexeme

/-- The declarations of names that the room has already. -/
def again (r : Room) : List Token := repeated [] r.declared

/-- The first declarations that give a value. -/
def initials (r : Room) : List (Token × Expr) := initialized (r.params.map (·.lexeme)) r.body

end Room

mutual

/-- The rooms inside a statement. -/
def roomsOfStmt (xs : List Enclosure) : Stmt → List Room
  | .block body => ⟨.block, [], body, xs⟩ :: roomsOfStmts (⟨.block, []⟩ :: xs) body
  | .branch _ t none => roomsOfStmt xs t
  | .branch _ t (some e) => roomsOfStmt xs t ++ roomsOfStmt xs e
  | .loop _ body => roomsOfStmt xs body
  | .function d => roomsOfFunction (declaring xs [d.name.lexeme]) d
  | .classDecl name methods statics =>
    roomsOfFunctions (⟨.methods, ["this"]⟩ :: declaring xs [name.lexeme]) methods ++
      roomsOfFunctions (⟨.statics, ["this"]⟩ :: declaring xs [name.lexeme]) statics
  | _ => []

def roomsOfStmts (xs : List Enclosure) : List Stmt → List Room
  | [] => []
  | d :: ds => roomsOfStmt xs d ++ roomsOfStmts (declaring xs (declaredIn [d])) ds

def roomsOfFunction (xs : List Enclosure) : FunctionDecl → List Room
  | .mk _ params body =>
    ⟨.function, params.getD [], body, xs⟩ ::
      roomsOfStmts (⟨.function, (params.getD []).map (·.lexeme)⟩ :: xs) body

def roomsOfFunctions (xs : List Enclosure) : List FunctionDecl → List Room
  | [] => []
  | d :: ds => roomsOfFunction xs d ++ roomsOfFunctions xs ds

end

/-- The rooms of an input. -/
def rooms : Grammar.Input → List Room
  | .expression _ => []
  | .statements body => roomsOfStmts [] body

/-- The room that is opened at a place. -/
def Site.room? : Site → Option Room
  | ⟨.stmt (.block body), xs⟩ => some ⟨.block, [], body, xs⟩
  | ⟨.function _ d, xs⟩ => some ⟨.function, d.paramList, d.body, xs⟩
  | _ => none

section
variable {r : Room}

/-- The room is opened at a place. -/
abbrev Room.OpenedAt (r : Room) (p : Site) : Prop := p.room? = some r

open Site

lemma not_opened_expr (e : Expr) (xs : List Enclosure) : ¬Somewhere r.OpenedAt ⟨.expr e, xs⟩ := by
  induction e using Expr.induction_parts with
  | h e ih =>
    rw [somewhere_expr]
    rintro (⟨p, hp, hopened⟩ | hopened)
    · exact ih p hp hopened
    · cases e <;> exact nomatch hopened

mutual

theorem mem_roomsOfStmt : ∀ (d : Stmt) (xs : List Enclosure),
    r ∈ roomsOfStmt xs d ↔ Somewhere r.OpenedAt ⟨.stmt d, xs⟩
  | .expression e, xs => by
    simp [roomsOfStmt, somewhere_stmt, held, not_opened_expr, room?]
  | .print e, xs => by
    simp [roomsOfStmt, somewhere_stmt, held, not_opened_expr, room?]
  | .declare name initial, xs => by
    simp [roomsOfStmt, somewhere_stmt, held, not_opened_expr, room?]
  | .block body, xs => by
    simp [roomsOfStmt, somewhere_stmt, held, mem_roomsOfStmts body, room?, eq_comm]
  | .branch c t none, xs => by
    simp [roomsOfStmt, somewhere_stmt, held, mem_roomsOfStmt t, not_opened_expr, room?]
  | .branch c t (some e), xs => by
    simp [roomsOfStmt, somewhere_stmt, held, mem_roomsOfStmt t, mem_roomsOfStmt e,
      not_opened_expr, room?]
  | .loop c body, xs => by
    simp [roomsOfStmt, somewhere_stmt, held, mem_roomsOfStmt body, not_opened_expr, room?]
  | .breakLoop _, xs => by simp [roomsOfStmt, somewhere_stmt, held, room?]
  | .function d, xs => by
    simp [roomsOfStmt, somewhere_stmt, held, mem_roomsOfFunction d .function, room?]
  | .returnFrom _ value, xs => by
    simp [roomsOfStmt, somewhere_stmt, held, not_opened_expr, room?]
  | .classDecl name methods statics, xs => by
    have hmethods := mem_roomsOfFunctions methods Survey.methodBody
    have hstatics := mem_roomsOfFunctions statics fun _ => .method
    simp [roomsOfStmt, somewhere_stmt, held, hmethods, hstatics, room?, or_and_right, exists_or]

theorem mem_roomsOfStmts : ∀ (body : List Stmt) (xs : List Enclosure),
    r ∈ roomsOfStmts xs body ↔ Somewhere r.OpenedAt ⟨.stmts body, xs⟩
  | [], xs => by simp [roomsOfStmts, somewhere_stmts_nil, room?]
  | d :: ds, xs => by
    rw [roomsOfStmts, List.mem_append, mem_roomsOfStmt d, mem_roomsOfStmts ds,
      somewhere_stmts_cons (fun _ _ => nofun)]

theorem mem_roomsOfFunction : ∀ (d : FunctionDecl) (body : Body) (xs : List Enclosure),
    r ∈ roomsOfFunction xs d ↔ Somewhere r.OpenedAt ⟨.function body d, xs⟩
  | .mk name params code, body, xs => by
    rw [roomsOfFunction, List.mem_cons, mem_roomsOfStmts code, somewhere_function]
    refine or_congr ?_ Iff.rfl
    exact eq_comm.trans (Option.some.injEq _ _).symm.to_iff

theorem mem_roomsOfFunctions : ∀ (ds : List FunctionDecl) (body : FunctionDecl → Body)
    (xs : List Enclosure),
    r ∈ roomsOfFunctions xs ds ↔ ∃ d ∈ ds, Somewhere r.OpenedAt ⟨.function (body d) d, xs⟩
  | [], _, xs => by simp [roomsOfFunctions]
  | d :: ds, body, xs => by
    rw [roomsOfFunctions, List.mem_append, mem_roomsOfFunction d (body d),
      mem_roomsOfFunctions ds body]
    simp

end

/-- The rooms of an input are those that are opened somewhere in it. -/
theorem mem_rooms {input : Grammar.Input} :
    r ∈ rooms input ↔ ∃ p, Stands input p ∧ p.room? = some r := by
  cases input with
  | expression e => exact iff_of_false List.not_mem_nil (not_opened_expr e [])
  | statements body => exact mem_roomsOfStmts body []

end

end Scope
end Lox
