import Lox.Proofs.Scope.Locals
import Lox.Proofs.Source.Lines

/-!
The names of one scope are declared in the order of the source.

A tree lists the declarations of a scope as they stand in the text, one after another, so their
lines never go back.
-/

namespace Lox

namespace Grammar

open Scope (Room Enclosure)

/-- The names declared in each of the rooms stand in the tokens, in the same order. -/
def Within (ts : List Token) (rs : List Room) : Prop := ∀ r ∈ rs, r.declared.Sublist ts

section
variable {ts us : List Token} {rs qs : List Room} {d : Stmt}

lemma Within.mono (h : Within ts rs) (hts : ts.Sublist us) : Within us rs := fun r hr =>
  (h r hr).trans hts

lemma within_append : Within ts (rs ++ qs) ↔ Within ts rs ∧ Within ts qs := List.forall_mem_append

lemma within_cons {r : Room} : Within ts (r :: rs) ↔ r.declared.Sublist ts ∧ Within ts rs :=
  List.forall_mem_cons

lemma within_nil (ts : List Token) : Within ts [] := List.forall_mem_nil _

/-- So do the name that a statement declares and those of the rooms inside the statement. -/
structure Orders (d : Stmt) (ts : List Token) : Prop where
  name : d.declared?.toList.Sublist ts
  rooms : ∀ xs, Within ts (Scope.roomsOfStmt xs d)

lemma Orders.mono (h : Orders d ts) (hts : ts.Sublist us) : Orders d us :=
  ⟨h.name.trans hts, fun xs => (h.rooms xs).mono hts⟩

/-- The same for a tree of any nonterminal. -/
def Nonterminal.Orders : (q : Nonterminal) → q.Tree → List Token → Prop
  | declarations, body, ts => (Scope.Survey.declarations body).Sublist ts ∧
    ∀ xs, Within ts (Scope.roomsOfStmts xs body)
  | declaration, d, ts => Grammar.Orders d ts
  | statement, d, ts => Grammar.Orders d ts
  | function _, d, ts => d.name ∈ ts ∧ ∀ xs, Within ts (Scope.roomsOfFunction xs d)
  | members, (methods, statics), ts => ∀ xs, Within ts (Scope.roomsOfFunctions xs methods) ∧
    Within ts (Scope.roomsOfFunctions xs statics)

/-! ### Parts -/

lemma sublist_inner (before ts after : List Token) : ts.Sublist (before ++ (ts ++ after)) :=
  (List.sublist_append_left ts after).trans (List.sublist_append_right before _)

lemma Names.sublist {names : List Token} (h : Names names ts) : names.Sublist ts := by
  obtain ⟨-, h⟩ := h
  induction names generalizing ts with
  | nil => exact List.nil_sublist ts
  | cons t names ih =>
    cases names with
    | nil =>
      obtain ⟨u, hu, rfl⟩ := spells_singleton.mp h
      obtain rfl : u = t := hu
      exact List.Sublist.refl _
    | cons t' names =>
      -- a comma stands between two names
      obtain ⟨u, us, hu, hus, rfl⟩ := spells_cons.mp h
      obtain ⟨comma, vs, -, hvs, rfl⟩ := spells_cons.mp hus
      obtain rfl : u = t := hu
      exact ((ih hvs).cons comma).cons_cons u

lemma VarDecl.orders (h : VarDecl d ts) : Orders d ts := by
  cases h with
  | bare => exact ⟨List.singleton_sublist.mpr (by simp), fun _ => within_nil _⟩
  | initialized => exact ⟨List.singleton_sublist.mpr (by simp), fun _ => within_nil _⟩

lemma ExprStmt.orders (h : ExprStmt d ts) : Orders d ts := by
  cases h with
  | intro => exact ⟨List.nil_sublist _, fun _ => within_nil _⟩

lemma ForFirst.orders {first : Option Stmt} (h : ForFirst first ts) :
    ∀ d ∈ first, Orders d ts := by
  cases h with
  | var h =>
    rintro _ ⟨⟩
    exact h.orders
  | expression h =>
    rintro _ ⟨⟩
    exact h.orders
  | none => exact nofun

lemma orders_block {body : List Stmt} (h : Nonterminal.declarations.Orders body ts) :
    Orders (.block body) ts :=
  ⟨List.nil_sublist _, fun _ => within_cons.mpr ⟨h.1, h.2 _⟩⟩

lemma orders_loop {c : Expr} {body : Stmt} (h : Orders body ts) : Orders (.loop c body) ts :=
  ⟨List.nil_sublist _, h.rooms⟩

/-- Two statements one after the other. -/
lemma orders_pair {d' : Stmt} (h : Orders d ts) (h' : Orders d' us) :
    Nonterminal.declarations.Orders [d, d'] (ts ++ us) := by
  have hnames : Scope.Survey.declarations [d, d'] = d.declared?.toList ++ d'.declared?.toList := by
    unfold Scope.Survey.declarations
    cases hd : d.declared? <;> cases hd' : d'.declared? <;> simp [hd, hd']
  refine ⟨hnames ▸ h.name.append h'.name, fun xs => ?_⟩
  rw [Scope.roomsOfStmts, Scope.roomsOfStmts, Scope.roomsOfStmts, List.append_nil]
  exact within_append.mpr ⟨(h.rooms _).mono (List.sublist_append_left ts us),
    (h'.rooms _).mono (List.sublist_append_right ts us)⟩

/-- Of what a for loop stands for, only what comes first and the body are made of declarations. -/
lemma orders_forLoop {first : Option Stmt} {condition increment : Option Expr} {body : Stmt}
    (hfirst : ∀ d ∈ first, Orders d ts) (hbody : Orders body us) :
    Orders (forLoop first condition increment body) (ts ++ us) := by
  have hround : ∀ e : Expr, Orders (.block [body, .expression e]) us := fun e => by
    have he : Orders (.expression e) [] := ⟨List.nil_sublist _, fun _ => within_nil _⟩
    have hpair := orders_pair hbody he
    rw [List.append_nil] at hpair
    exact orders_block hpair
  have hrounds : ∀ rounds : Stmt, Orders rounds us → ∀ d ∈ first,
      Orders (.block [d, rounds]) (ts ++ us) := fun rounds hrounds d hd =>
    orders_block (orders_pair (hfirst d hd) hrounds)
  have hright := List.sublist_append_right ts us
  unfold forLoop
  cases first <;> cases condition <;> cases increment <;> dsimp only
  all_goals
    first
    | refine hrounds _ (orders_loop ?_) _ rfl
    | refine (orders_loop ?_).mono hright
    first | exact hbody | exact hround _

/-! ### All trees -/

/-- What derives from tokens declares its names in their order. -/
lemma Derives.orders {strict o : Bool} {q : Nonterminal} {x : q.Tree}
    (h : Derives strict q x o ts) : q.Orders x ts := by
  induction h with
  | nil => exact ⟨List.Sublist.refl _, fun _ => within_nil _⟩
  | @cons s _ ts body us _ _ ih ih' =>
    have hnames : Scope.Survey.declarations (s :: body) =
        s.declared?.toList ++ Scope.Survey.declarations body := by
      unfold Scope.Survey.declarations
      cases hs : s.declared? <;> simp [hs]
    refine ⟨hnames ▸ ih.name.append ih'.1, fun xs => within_append.mpr ⟨?_, ?_⟩⟩
    · exact (ih.rooms _).mono (List.sublist_append_left ts us)
    · exact (ih'.2 _).mono (List.sublist_append_right ts us)
  | @classDecl word name opening methods statics ts closing _ _ _ _ _ ih =>
    have hinner := sublist_inner [word, name, opening] ts [closing]
    refine ⟨List.singleton_sublist.mpr (by simp), fun xs => within_append.mpr ⟨?_, ?_⟩⟩
    · exact (ih _).1.mono hinner
    · exact (ih _).2.mono hinner
  | @funDecl word d ts _ _ ih =>
    obtain ⟨hname, hrooms⟩ := ih
    refine ⟨List.singleton_sublist.mpr (List.mem_cons_of_mem word hname), fun xs => ?_⟩
    exact (hrooms _).mono (List.sublist_cons_self word ts)
  | varDecl h => exact h.orders
  | ofStatement _ ih => exact ih
  | noMembers => exact fun _ => ⟨within_nil _, within_nil _⟩
  | @instanceMethod m ts methods statics us _ _ ih ih' =>
    intro xs
    have hright := List.sublist_append_right ts us
    refine ⟨within_append.mpr ⟨?_, (ih' xs).1.mono hright⟩, (ih' xs).2.mono hright⟩
    exact (ih.2 xs).mono (List.sublist_append_left ts us)
  | @staticMethod word m ts methods statics us _ _ _ ih ih' =>
    intro xs
    have hright := (List.sublist_append_right ts us).cons word
    refine ⟨(ih' xs).1.mono hright, within_append.mpr ⟨?_, (ih' xs).2.mono hright⟩⟩
    exact (ih.2 xs).mono ((List.sublist_append_left ts us).cons word)
  | @function sort name opening params ts closing brace body us brace' _ _ hparams _ _ _ _ ih =>
    have hbody : us.Sublist (closing :: brace :: (us ++ [brace'])) :=
      sublist_inner [closing, brace] us [brace']
    have hall : (ts ++ us).Sublist (name :: opening :: (ts ++ closing :: brace :: (us ++ [brace']))) :=
      (((List.Sublist.refl ts).append hbody).cons opening).cons name
    refine ⟨List.mem_cons_self .., fun xs => within_cons.mpr ⟨?_, ?_⟩⟩
    · exact (hparams.sublist.append ih.1).trans hall
    · exact (ih.2 _).mono ((List.sublist_append_right ts us).trans hall)
  | @getter name brace body us brace' _ _ _ _ ih =>
    have hbody := sublist_inner [name, brace] us [brace']
    exact ⟨List.mem_cons_self .., fun xs =>
      within_cons.mpr ⟨ih.1.trans hbody, (ih.2 _).mono hbody⟩⟩
  | exprStmt h => exact h.orders
  | printStmt => exact ⟨List.nil_sublist _, fun _ => within_nil _⟩
  | @ifStmt word opening c ts closing s o us _ _ _ _ _ ih =>
    refine ⟨List.nil_sublist _, fun xs => (ih.rooms xs).mono ?_⟩
    have hinner := sublist_inner (word :: opening :: (ts ++ [closing])) us []
    simpa using hinner
  | @ifElse word opening c ts closing s o us word' s' o' vs _ _ _ _ _ _ _ _ ih ih' =>
    have hthen := sublist_inner (word :: opening :: (ts ++ [closing])) us (word' :: vs)
    have helse := sublist_inner (word :: opening :: (ts ++ closing :: (us ++ [word'])))
      vs []
    refine ⟨List.nil_sublist _, fun xs => within_append.mpr ⟨?_, ?_⟩⟩
    · exact (ih.rooms xs).mono (by simpa using hthen)
    · exact (ih'.rooms xs).mono (by simpa using helse)
  | @whileStmt word opening c ts closing s o us _ _ _ _ _ ih =>
    have hinner := sublist_inner (word :: opening :: (ts ++ [closing])) us []
    exact orders_loop (ih.mono (by simpa using hinner))
  | @forStmt word opening first ts condition us semicolon increment vs closing s o ws _ _ hfirst _
      _ _ _ _ ih =>
    have hbody : ws.Sublist (us ++ semicolon :: (vs ++ closing :: ws)) := by
      have hinner := sublist_inner (us ++ semicolon :: (vs ++ [closing])) ws []
      simpa using hinner
    have hall := (((List.Sublist.refl ts).append hbody).cons opening).cons word
    exact (orders_forLoop hfirst.orders ih).mono hall
  | breakStmt => exact ⟨List.nil_sublist _, fun _ => within_nil _⟩
  | returnStmt => exact ⟨List.nil_sublist _, fun _ => within_nil _⟩
  | @block opening body ts closing _ _ _ ih =>
    exact (orders_block ih).mono (sublist_inner [opening] ts [closing])

end

end Grammar

namespace Scope

open Grammar

lemma within_program {tokens : List Token} {firstId : NodeId} {body : List Stmt}
    (h : (program tokens firstId).result = .ok body) :
    Within tokens (rooms (.statements body)) := by
  have hbefore : (beforeEnd tokens).Sublist tokens := (List.takeWhile_prefix _).sublist
  exact ((program_sound h).derives.orders.2 []).mono hbefore

/-- The names of a room are declared in the order of the tokens that the room is read from. -/
theorem sublist_declared {mode : Mode} {source : String} {firstId : NodeId} {input : Input}
    (h : (read mode source firstId).result = .ok input) :
    ∀ r ∈ rooms input, r.declared.Sublist (Source.tokens source) := by
  have hinput := inputOf_of_read h
  have hexpression : ∀ e : Expr, Within (Source.tokens source) (rooms (.expression e)) := fun _ =>
    within_nil _
  cases mode with
  | program =>
    obtain ⟨body, hbody, rfl⟩ := result_map_eq_ok hinput
    exact within_program hbody
  | expression =>
    obtain ⟨e, -, rfl⟩ := result_map_eq_ok hinput
    exact hexpression e
  | line =>
    rw [inputOf] at hinput
    rcases line_cases (Source.tokens source) firstId with hline | ⟨id, -, hline⟩
    · rw [hline] at hinput
      obtain ⟨e, -, rfl⟩ := result_map_eq_ok hinput
      exact hexpression e
    · rw [hline] at hinput
      obtain ⟨body, hbody, rfl⟩ := result_map_eq_ok hinput
      exact within_program hbody

/-- The lines of the names that are declared in a room never go back. -/
theorem pairwise_line_declared {mode : Mode} {source : String} {firstId : NodeId} {input : Input}
    (h : (read mode source firstId).result = .ok input) {r : Room} (hr : r ∈ rooms input) :
    r.declared.Pairwise (·.line ≤ ·.line) :=
  (Source.pairwise_line_tokens source).sublist (sublist_declared h r hr)

end Scope

end Lox
