import Mathlib.Logic.Relation
import Lox.Proofs.Scope.Recorded

/-!
Which declaration a name means, told from where it stands in a tree.

A place is a part of a tree with the scopes around it, each with the names that are declared
directly in it before the place. A name belongs to the innermost of these scopes that has it. Here
it is shown that surveys, which keep one stack of layers for a whole input, find exactly that.
-/

namespace Lox.Scope

/-- What opens a scope: a block, a function with its parameters, the instance methods of a class,
or its static methods. -/
inductive Opener
  | block
  | function
  | methods
  | statics
deriving DecidableEq

/-- A scope around a place, with the names that are declared directly in it before the place. -/
structure Enclosure where
  opener : Opener
  names : List String

namespace Enclosure

/-- More names are declared in the innermost scope. Names at the top level are in no scope. -/
def declaring (xs : List Enclosure) (names : List String) : List Enclosure :=
  match xs with
  | [] => []
  | x :: xs => { x with names := x.names ++ names } :: xs

/-- Whether a place with these scopes around it is inside a class. -/
def inClass (xs : List Enclosure) : Bool :=
  xs.any fun x => x.opener = .methods || x.opener = .statics

/-- How many scopes outward the innermost scope stands that has a name. -/
def distance? (xs : List Enclosure) (name : String) : Option ℕ :=
  xs.findIdx? (name ∈ ·.names)

end Enclosure

/-- The names that statements declare in the scope they stand in. -/
def declaredIn (ds : List Stmt) : List String := (ds.filterMap (·.declared?)).map (·.lexeme)

/-- A part of a tree with the scopes around it, innermost first. -/
structure Site where
  node : Node
  scopes : List Enclosure

namespace Site

open Enclosure

/-- The place directly holds the other. -/
inductive Holds : Site → Site → Prop
  | part {e p xs} : p ∈ e.parts → Holds ⟨.expr e, xs⟩ ⟨.expr p, xs⟩
  | head {d e xs} : e ∈ d.heads → Holds ⟨.stmt d, xs⟩ ⟨.expr e, xs⟩
  | returned {keyword e xs} : Holds ⟨.stmt (.returnFrom keyword (some e)), xs⟩ ⟨.expr e, xs⟩
  /-- A variable counts from its own initializer on. -/
  | initial {name e xs} : Holds ⟨.stmt (.declare name (some e)), xs⟩
      ⟨.expr e, declaring xs [name.lexeme]⟩
  | branch {d b xs} : b ∈ d.branches → Holds ⟨.stmt d, xs⟩ ⟨.stmt b, xs⟩
  | block {body xs} : Holds ⟨.stmt (.block body), xs⟩ ⟨.stmts body, ⟨.block, []⟩ :: xs⟩
  /-- The name of a function counts inside its own body. -/
  | function {d xs} : Holds ⟨.stmt (.function d), xs⟩
      ⟨.function .function d, declaring xs [d.name.lexeme]⟩
  | method {name methods statics d xs} : d ∈ methods →
      Holds ⟨.stmt (.classDecl name methods statics), xs⟩
        ⟨.function (Survey.methodBody d) d, ⟨.methods, ["this"]⟩ :: declaring xs [name.lexeme]⟩
  | static {name methods statics d xs} : d ∈ statics →
      Holds ⟨.stmt (.classDecl name methods statics), xs⟩
        ⟨.function .method d, ⟨.statics, ["this"]⟩ :: declaring xs [name.lexeme]⟩
  | body {body d xs} : Holds ⟨.function body d, xs⟩
      ⟨.stmts d.body, ⟨.function, d.paramList.map (·.lexeme)⟩ :: xs⟩
  | statement {before d after xs} : Holds ⟨.stmts (before ++ d :: after), xs⟩
      ⟨.stmt d, declaring xs (declaredIn before)⟩

/-- The number and the name where a variable is read or assigned, or `this` stands inside a
class. -/
def occurrence? : Site → Option (NodeId × String)
  | ⟨.expr (.reference id name), _⟩ => some (id, name.lexeme)
  | ⟨.expr (.assign id name _), _⟩ => some (id, name.lexeme)
  | ⟨.expr (.this id keyword), xs⟩ => if inClass xs then some (id, keyword.lexeme) else none
  | _ => none

/-- What a survey should note at a place. -/
def lookup? (p : Site) : Option Lookup :=
  p.occurrence?.map fun (id, name) => ⟨id, name, distance? p.scopes name⟩

/-- A property holds at a place or somewhere inside it. -/
def Somewhere (A : Site → Prop) (p : Site) : Prop :=
  ∃ q, Relation.ReflTransGen Holds p q ∧ A q

/-- Somewhere inside a place there is one with the given lookup. -/
def Has (p : Site) (l : Lookup) : Prop :=
  ∃ q, Relation.ReflTransGen Holds p q ∧ q.lookup? = some l

/-- A place in the tree of an input. At the top level there are no scopes. -/
def Stands (input : Grammar.Input) (p : Site) : Prop :=
  Relation.ReflTransGen Holds ⟨rootOf input, []⟩ p

/-! ### What stands inside a place -/

section
variable {A : Site → Prop} {p : Site} {xs : List Enclosure}

lemma somewhere_iff : Somewhere A p ↔ A p ∨ ∃ q, p.Holds q ∧ Somewhere A q := by
  constructor
  · rintro ⟨r, hpr, hr⟩
    rcases hpr.cases_head with rfl | ⟨q, hpq, hqr⟩
    · exact .inl hr
    · exact .inr ⟨q, hpq, r, hqr, hr⟩
  · rintro (hp | ⟨q, hpq, r, hqr, hr⟩)
    · exact ⟨p, .refl, hp⟩
    · exact ⟨r, .head hpq hqr, hr⟩

lemma somewhere_expr {e : Expr} : Somewhere A ⟨.expr e, xs⟩ ↔
    (∃ p ∈ e.parts, Somewhere A ⟨.expr p, xs⟩) ∨ A ⟨.expr e, xs⟩ := by
  rw [somewhere_iff, or_comm]
  refine or_congr_left ⟨?_, ?_⟩
  · rintro ⟨q, hq, hA⟩
    cases hq with
    | part hp => exact ⟨_, hp, hA⟩
  · rintro ⟨p, hp, hA⟩
    exact ⟨_, .part hp, hA⟩

/-- The places that a statement directly holds. -/
def held (xs : List Enclosure) : Stmt → List Site
  | .expression e => [⟨.expr e, xs⟩]
  | .print e => [⟨.expr e, xs⟩]
  | .declare name initial => initial.toList.map (⟨.expr ·, declaring xs [name.lexeme]⟩)
  | .block body => [⟨.stmts body, ⟨.block, []⟩ :: xs⟩]
  | .branch c t e => ⟨.expr c, xs⟩ :: (t :: e.toList).map (⟨.stmt ·, xs⟩)
  | .loop c body => [⟨.expr c, xs⟩, ⟨.stmt body, xs⟩]
  | .breakLoop _ => []
  | .function d => [⟨.function .function d, declaring xs [d.name.lexeme]⟩]
  | .returnFrom _ value => value.toList.map (⟨.expr ·, xs⟩)
  | .classDecl name methods statics =>
    methods.map (fun d =>
      ⟨.function (Survey.methodBody d) d, ⟨.methods, ["this"]⟩ :: declaring xs [name.lexeme]⟩) ++
    statics.map (fun d =>
      ⟨.function .method d, ⟨.statics, ["this"]⟩ :: declaring xs [name.lexeme]⟩)

lemma mem_held_of_holds {d : Stmt} {q : Site} (h : Holds ⟨.stmt d, xs⟩ q) : q ∈ held xs d := by
  cases h with
  | head he => cases d <;> simp_all [Stmt.heads, held]
  | branch hb => cases d <;> simp_all [Stmt.branches, held]
  | _ => simp_all [held]

lemma holds_of_mem_held {d : Stmt} {q : Site} (h : q ∈ held xs d) : Holds ⟨.stmt d, xs⟩ q := by
  cases d with
  | expression e => exact List.mem_singleton.mp h ▸ .head (List.mem_singleton_self e)
  | print e => exact List.mem_singleton.mp h ▸ .head (List.mem_singleton_self e)
  | declare name initial =>
    obtain ⟨e, he, rfl⟩ := List.mem_map.mp h
    obtain rfl := Option.mem_toList.mp he
    exact .initial
  | block body => exact List.mem_singleton.mp h ▸ .block
  | branch c t e =>
    rcases List.mem_cons.mp h with rfl | h
    · exact .head (List.mem_singleton_self c)
    · obtain ⟨b, hb, rfl⟩ := List.mem_map.mp h
      exact .branch hb
  | loop c body =>
    rcases List.mem_pair.mp h with rfl | rfl
    · exact .head (List.mem_singleton_self c)
    · exact .branch (List.mem_singleton_self body)
  | breakLoop => exact absurd h List.not_mem_nil
  | function d => exact List.mem_singleton.mp h ▸ .function
  | returnFrom keyword value =>
    obtain ⟨e, he, rfl⟩ := List.mem_map.mp h
    obtain rfl := Option.mem_toList.mp he
    exact .returned
  | classDecl name methods statics =>
    rcases List.mem_append.mp h with h | h
    · obtain ⟨d, hd, rfl⟩ := List.mem_map.mp h
      exact .method hd
    · obtain ⟨d, hd, rfl⟩ := List.mem_map.mp h
      exact .static hd

lemma somewhere_stmt {d : Stmt} : Somewhere A ⟨.stmt d, xs⟩ ↔
    A ⟨.stmt d, xs⟩ ∨ ∃ q ∈ held xs d, Somewhere A q := by
  rw [somewhere_iff]
  exact or_congr_right <| exists_congr fun q =>
    and_congr_left fun _ => ⟨mem_held_of_holds, holds_of_mem_held⟩

lemma somewhere_function {body : Body} {d : FunctionDecl} : Somewhere A ⟨.function body d, xs⟩ ↔
    A ⟨.function body d, xs⟩ ∨
      Somewhere A ⟨.stmts d.body, ⟨.function, d.paramList.map (·.lexeme)⟩ :: xs⟩ := by
  rw [somewhere_iff]
  refine or_congr_right ⟨?_, fun hA => ⟨_, .body, hA⟩⟩
  rintro ⟨q, hq, hA⟩
  cases hq with
  | body => exact hA

lemma somewhere_stmts_nil : Somewhere A ⟨.stmts [], xs⟩ ↔ A ⟨.stmts [], xs⟩ := by
  rw [somewhere_iff, or_iff_left]
  rintro ⟨q, hq, -⟩
  generalize hn : Node.stmts [] = n at hq
  cases hq with
  | statement => simp at hn
  | _ => exact nomatch hn

lemma declaring_declaring (xs : List Enclosure) (ns ms : List String) :
    declaring (declaring xs ns) ms = declaring xs (ns ++ ms) := by
  cases xs with
  | nil => rfl
  | cons x xs => simp [declaring]

@[simp] lemma declaring_nil (xs : List Enclosure) : declaring xs [] = xs := by
  cases xs with
  | nil => rfl
  | cons x xs => simp [declaring]

lemma declaredIn_append (ds ds' : List Stmt) :
    declaredIn (ds ++ ds') = declaredIn ds ++ declaredIn ds' := by
  simp [declaredIn]

lemma somewhere_stmts_cons (hA : ∀ body ys, ¬A ⟨.stmts body, ys⟩) {d : Stmt} {ds : List Stmt} :
    Somewhere A ⟨.stmts (d :: ds), xs⟩ ↔
      Somewhere A ⟨.stmt d, xs⟩ ∨ Somewhere A ⟨.stmts ds, declaring xs (declaredIn [d])⟩ := by
  rw [somewhere_iff, or_iff_right (hA _ _)]
  constructor
  · rintro ⟨q, hq, hl⟩
    generalize hn : Node.stmts (d :: ds) = n at hq
    cases hq with
    | @statement before b after =>
      obtain h := Node.stmts.inj hn
      cases before with
      | nil =>
        obtain ⟨rfl, rfl⟩ := List.cons.inj h
        rw [show declaredIn [] = [] from rfl, declaring_nil] at hl
        exact .inl hl
      | cons b before =>
        obtain ⟨rfl, rfl⟩ := List.cons.inj h
        rw [← List.singleton_append, declaredIn_append, ← declaring_declaring] at hl
        exact .inr (somewhere_iff.mpr (.inr ⟨_, .statement, hl⟩))
    | _ => exact nomatch hn
  · rintro (hl | hl)
    · refine ⟨_, @Holds.statement [] d ds xs, ?_⟩
      rwa [show declaredIn [] = [] from rfl, declaring_nil]
    · obtain ⟨q, hq, hl⟩ := (somewhere_iff.mp hl).resolve_left (hA _ _)
      generalize hn : Node.stmts ds = n at hq
      cases hq with
      | @statement before b after =>
        obtain rfl := Node.stmts.inj hn
        refine ⟨_, @Holds.statement (d :: before) b after xs, ?_⟩
        rwa [← List.singleton_append, declaredIn_append, ← declaring_declaring]
      | _ => exact nomatch hn

/-! ### What is noted inside a place -/

variable {l : Lookup}

lemma has_expr {e : Expr} : Has ⟨.expr e, xs⟩ l ↔
    (∃ p ∈ e.parts, Has ⟨.expr p, xs⟩ l) ∨ lookup? ⟨.expr e, xs⟩ = some l :=
  somewhere_expr

/-- Only expressions refer to names. -/
lemma has_stmt {d : Stmt} : Has ⟨.stmt d, xs⟩ l ↔ ∃ q ∈ held xs d, q.Has l :=
  somewhere_stmt.trans (or_iff_right nofun)

lemma has_function {body : Body} {d : FunctionDecl} : Has ⟨.function body d, xs⟩ l ↔
    Has ⟨.stmts d.body, ⟨.function, d.paramList.map (·.lexeme)⟩ :: xs⟩ l :=
  somewhere_function.trans (or_iff_right nofun)

lemma not_has_stmts_nil : ¬Has ⟨.stmts [], xs⟩ l := somewhere_stmts_nil.not.mpr nofun

lemma has_stmts_cons {d : Stmt} {ds : List Stmt} : Has ⟨.stmts (d :: ds), xs⟩ l ↔
    Has ⟨.stmt d, xs⟩ l ∨ Has ⟨.stmts ds, declaring xs (declaredIn [d])⟩ l :=
  somewhere_stmts_cons fun _ _ => nofun

end

end Site

/-! ### Surveys -/

namespace Survey

open Enclosure Site

/-- The layers declare the names of the enclosing scopes, one layer for each. -/
def Covers (ls : List Layer) (xs : List Enclosure) : Prop :=
  List.Forall₂ (fun l x => ∀ name, l.contains name ↔ name ∈ x.names) ls xs

section
variable {ls : List Layer} {s s' s'' : Survey} {xs ys : List Enclosure} {P Q : Lookup → Prop}

lemma findIdx?_of_covers (h : Covers ls xs) (name : String) :
    ls.findIdx? (·.contains name) = distance? xs name := by
  unfold distance?
  induction h with
  | nil => rfl
  | @cons l x ls xs hl _ ih =>
    rw [List.findIdx?_cons, List.findIdx?_cons, ih]
    congr 1
    simp [hl name]

lemma contains_declare_iff {l : Layer} {t : Token} {name : String} :
    (l.declare t).contains name ↔ l.contains name ∨ name = t.lexeme := by
  unfold Table.contains Layer.declare
  rw [Table.get?_insert]
  split
  · rename_i h
    simp [h]
  · rename_i h
    simp [Ne.symm h]

lemma covers_declare (h : Covers s.layers xs) (name : Token) :
    Covers (s.declare name).layers (declaring xs [name.lexeme]) := by
  unfold declare
  split
  · rename_i hs
    rw [hs] at h ⊢
    cases h
    exact .nil
  · rename_i l rest hs
    rw [hs] at h
    cases h with
    | @cons _ x _ xs hl hrest =>
      split
      · rename_i hn
        rw [complain, hs]
        refine .cons (fun n => ?_) hrest
        rw [hl n, List.mem_append, List.mem_singleton]
        exact ⟨.inl, fun h => h.elim id fun h => h ▸ (hl _).mp hn⟩
      · refine .cons (fun n => ?_) hrest
        rw [contains_declare_iff, hl n, List.mem_append, List.mem_singleton]

/-- Layers that only differ in how far their locals have come. -/
lemma covers_define (h : Covers s.layers xs) (name : Token) :
    Covers (s.define name).layers xs := by
  unfold define
  split
  · exact h
  · rename_i l rest hs
    split
    · rw [hs] at h
      cases h with
      | cons hl hrest => exact .cons (fun n => by rw [contains_mark]; exact hl n) hrest
    · exact h

lemma covers_introduce (h : Covers s.layers xs) (name : Token) :
    Covers (s.introduce name).layers (declaring xs [name.lexeme]) :=
  covers_define (covers_declare h name) name

lemma covers_modify_mark (h : Covers ls xs) (d : ℕ) (name : String) (st : Status) :
    Covers (ls.modify d (·.mark name st)) xs := by
  induction h generalizing d with
  | nil => cases d <;> exact .nil
  | @cons l x ls xs hl hrest ih =>
    cases d with
    | zero => exact .cons (fun n => by rw [contains_mark]; exact hl n) hrest
    | succ d => exact .cons hl (ih d)

/-- The second survey goes on from the first, notes the given lookups, and leaves the given scopes
open. -/
structure Notes (P : Lookup → Prop) (xs : List Enclosure) (s s' : Survey) : Prop where
  layers : Covers s'.layers xs
  lookups : ∃ more, s'.lookups = more ++ s.lookups ∧ ∀ l, l ∈ more ↔ P l

lemma notes_of_lookups (h : Covers s'.layers xs) (hl : s'.lookups = s.lookups) :
    Notes (fun _ => False) xs s s' :=
  ⟨h, [], hl, fun _ => List.mem_nil_iff _⟩

lemma Notes.trans (h : Notes P xs s s') (h' : Notes Q ys s' s'') :
    Notes (fun l => P l ∨ Q l) ys s s'' := by
  obtain ⟨more, hmore, hP⟩ := h.lookups
  obtain ⟨more', hmore', hQ⟩ := h'.lookups
  refine ⟨h'.layers, more' ++ more, ?_, fun l => ?_⟩
  · rw [hmore', hmore, List.append_assoc]
  · rw [List.mem_append, hP, hQ, or_comm]

lemma Notes.congr (h : Notes P xs s s') (hPQ : ∀ l, P l ↔ Q l) : Notes Q xs s s' := by
  obtain ⟨more, hmore, hP⟩ := h.lookups
  exact ⟨h.layers, more, hmore, fun l => (hP l).trans (hPQ l)⟩

/-- What comes before notes nothing. -/
lemma Notes.before (h : Notes P xs s' s'') (hl : s'.lookups = s.lookups) : Notes P xs s s'' :=
  ⟨h.layers, hl ▸ h.lookups⟩

/-- What comes after notes nothing. -/
lemma Notes.after (h : Notes P xs s s') (hc : Covers s''.layers ys)
    (hl : s''.lookups = s'.lookups) : Notes P ys s s'' :=
  ⟨hc, hl ▸ h.lookups⟩

lemma Notes.closed {l : Layer} {x : Enclosure} (h : Notes P (x :: xs) (s.openLayer l) s') :
    Notes P xs s s'.closeLayer := by
  have hopen : Notes P (x :: xs) s s' := h.before rfl
  refine hopen.after ?_ (lookups_closeLayer s')
  rw [layers_closeLayer]
  obtain ⟨l, ls, -, hls, h'⟩ := List.forall₂_cons_right_iff.mp h.layers
  rw [h']
  exact hls

lemma notes_refer (h : Covers s.layers xs) (id : NodeId) (name : String) (reads : Bool) :
    Notes (· = ⟨id, name, distance? xs name⟩) xs s (s.refer id name reads) := by
  refine ⟨?_, [⟨id, name, s.depth? name⟩], rfl, fun l => ?_⟩
  · unfold refer
    dsimp only
    split
    · exact covers_modify_mark h ..
    · exact h
  · rw [List.mem_singleton, depth?, findIdx?_of_covers h]

lemma lookups_define (s : Survey) (name : Token) : (s.define name).lookups = s.lookups := by
  unfold define
  split
  · rfl
  · split <;> rfl

lemma lookups_declare (s : Survey) (name : Token) : (s.declare name).lookups = s.lookups := by
  unfold declare
  split
  · rfl
  · split <;> rfl

lemma lookups_introduce (s : Survey) (name : Token) : (s.introduce name).lookups = s.lookups :=
  (lookups_define _ name).trans (lookups_declare s name)

lemma returnPlace_eq (s : Survey) (ctx : Context) (keyword : Token) (value : Option Expr) :
    (s.returnPlace ctx keyword value).layers = s.layers ∧
      (s.returnPlace ctx keyword value).lookups = s.lookups := by
  unfold returnPlace
  split <;> dsimp only <;> split <;> exact ⟨rfl, rfl⟩

lemma notes_params (params : List Token) (h : Covers s.layers xs) :
    Covers (params.foldl (·.introduce ·) s).layers (declaring xs (params.map (·.lexeme))) ∧
      (params.foldl (·.introduce ·) s).lookups = s.lookups := by
  induction params generalizing s xs with
  | nil => exact ⟨(declaring_nil xs).symm ▸ h, rfl⟩
  | cons p ps ih =>
    obtain ⟨hc, hl⟩ := ih (covers_introduce h p)
    rw [declaring_declaring] at hc
    exact ⟨hc, hl.trans (lookups_introduce s p)⟩

/-! ### Expressions -/

lemma notes_note {ctx : Context} (hctx : ctx.inClass = inClass xs) (h : Covers s.layers xs)
    (e : Expr) : Notes (fun l => lookup? ⟨.expr e, xs⟩ = some l) xs s (s.note ctx e) := by
  cases e with
  | reference id name =>
    have hs : Covers (if s.isWaiting name.lexeme then s.complain name .readInOwnInitializer
        else s).layers xs := by split <;> exact h
    refine ((notes_refer hs id name.lexeme true).before ?_).congr fun l => ?_
    · split <;> rfl
    · simp [lookup?, occurrence?, eq_comm]
  | assign id name value =>
    refine (notes_refer h id name.lexeme false).congr fun l => ?_
    simp [lookup?, occurrence?, eq_comm]
  | this id keyword =>
    rw [note, hctx]
    split
    · rename_i hc
      refine (notes_refer h id keyword.lexeme true).congr fun l => ?_
      simp [lookup?, occurrence?, hc, eq_comm]
    · rename_i hc
      have hno := @notes_of_lookups s (s.complain keyword .thisOutsideClass) xs h rfl
      exact hno.congr fun l => by simp [lookup?, occurrence?, hc]
  | _ => exact (notes_of_lookups h rfl).congr fun l => by simp [lookup?, occurrence?]

lemma notes_exprs {ctx : Context} {es : List Expr}
    (he : ∀ e ∈ es, ∀ s, Covers s.layers xs → Notes (Has ⟨.expr e, xs⟩) xs s (expr ctx e s))
    (h : Covers s.layers xs) :
    Notes (fun l => ∃ e ∈ es, Has ⟨.expr e, xs⟩ l) xs s (exprs ctx es s) := by
  induction es generalizing s with
  | nil => exact (notes_of_lookups h rfl).congr fun l => by simp
  | cons e es ih =>
    have hfirst := he e (List.mem_cons_self ..) s h
    have hrest := ih (fun e he' => he e (List.mem_cons_of_mem _ he')) hfirst.layers
    exact (hfirst.trans hrest).congr fun l => by simp

/-- At an expression a survey notes what stands inside it. -/
theorem notes_expr {ctx : Context} (hctx : ctx.inClass = inClass xs) (e : Expr) :
    ∀ s, Covers s.layers xs → Notes (Has ⟨.expr e, xs⟩) xs s (expr ctx e s) := by
  induction e using Expr.induction_parts with
  | h e ih =>
    intro s h
    rw [expr_eq]
    have hparts := notes_exprs ih h
    exact (hparts.trans (notes_note hctx hparts.layers e)).congr fun l => has_expr.symm

end

/-! ### Statements -/

lemma inClass_declaring (xs : List Enclosure) (names : List String) :
    inClass (declaring xs names) = inClass xs := by
  cases xs <;> rfl

lemma covers_openLayer {s : Survey} {xs : List Enclosure} (h : Covers s.layers xs)
    (o : Opener) : Covers (s.openLayer []).layers (⟨o, []⟩ :: xs) :=
  .cons (fun name => by simp [Table.contains]) h

lemma covers_openThis {s : Survey} {xs : List Enclosure} (h : Covers s.layers xs)
    (o : Opener) (name : Token) :
    Covers (s.openLayer (.ofThis name)).layers (⟨o, ["this"]⟩ :: xs) := by
  refine .cons (fun n => ?_) h
  by_cases hn : n = "this"
  · simp [Layer.ofThis, Table.contains, Table.get?, hn]
  · simp [Layer.ofThis, Table.contains, Table.get?, hn, Ne.symm hn]

lemma declaredIn_branches {d : Stmt} (h : d.Orderly) {b : Stmt} (hb : b ∈ d.branches) :
    declaredIn [b] = [] := by
  simp [declaredIn, h.declared?_branches b hb]

/-- A statement that declares nothing leaves the scopes as they are. -/
lemma Notes.undeclared {d : Stmt} {P : Lookup → Prop} {xs : List Enclosure} {s s' : Survey}
    (h : Notes P (declaring xs (declaredIn [d])) s s') (hd : declaredIn [d] = []) :
    Notes P xs s s' := by
  rwa [hd, declaring_nil] at h

mutual

theorem notes_stmt {ctx : Context} {xs : List Enclosure} (hctx : ctx.inClass = inClass xs) :
    ∀ d, d.Orderly → ∀ s, Covers s.layers xs →
      Notes (Has ⟨.stmt d, xs⟩) (declaring xs (declaredIn [d])) s (stmt ctx d s)
  | .expression e, _, s, h => by
    have he := notes_expr hctx e s h
    rw [show declaredIn [.expression e] = [] from rfl, declaring_nil]
    exact he.congr fun l => by simp [has_stmt, held]
  | .print e, _, s, h => by
    have he := notes_expr hctx e s h
    rw [show declaredIn [.print e] = [] from rfl, declaring_nil]
    exact he.congr fun l => by simp [has_stmt, held]
  | .declare name none, _, s, h => by
    refine (notes_of_lookups (covers_introduce h name) (lookups_introduce s name)).congr fun l => ?_
    simp [has_stmt, held]
  | .declare name (some e), _, s, h => by
    have he := notes_expr (hctx.trans (inClass_declaring xs [name.lexeme]).symm) e _
      (covers_declare h name)
    have hdefined := (he.before (lookups_declare s name)).after (covers_define he.layers name)
      (lookups_define _ name)
    exact hdefined.congr fun l => by simp [has_stmt, held]
  | .block body, hd, s, h => by
    have hbody := @notes_stmts ctx (⟨.block, []⟩ :: xs) hctx body hd.inner _
      (covers_openLayer h .block)
    rw [show declaredIn [.block body] = [] from rfl, declaring_nil]
    exact hbody.closed.congr fun l => by simp [has_stmt, held]
  | .branch c t none, hd, s, h => by
    have hc := notes_expr hctx c s h
    have ht := (notes_stmt hctx t (hd.branches t (by simp [Stmt.branches])) _ hc.layers).undeclared
      (declaredIn_branches hd (by simp [Stmt.branches]))
    rw [show declaredIn [.branch c t none] = [] from rfl, declaring_nil]
    exact (hc.trans ht).congr fun l => by simp [has_stmt, held]
  | .branch c t (some e), hd, s, h => by
    have hc := notes_expr hctx c s h
    have ht := (notes_stmt hctx t (hd.branches t (by simp [Stmt.branches])) _ hc.layers).undeclared
      (declaredIn_branches hd (by simp [Stmt.branches]))
    have he := (notes_stmt hctx e (hd.branches e (by simp [Stmt.branches])) _ ht.layers).undeclared
      (declaredIn_branches hd (by simp [Stmt.branches]))
    rw [show declaredIn [.branch c t (some e)] = [] from rfl, declaring_nil]
    exact (hc.trans (ht.trans he)).congr fun l => by simp [has_stmt, held]
  | .loop c body, hd, s, h => by
    have hc := notes_expr hctx c s h
    have hbody := (notes_stmt hctx body (hd.branches body (by simp [Stmt.branches])) _
      hc.layers).undeclared (declaredIn_branches hd (by simp [Stmt.branches]))
    rw [show declaredIn [.loop c body] = [] from rfl, declaring_nil]
    exact (hc.trans hbody).congr fun l => by simp [has_stmt, held]
  | .breakLoop keyword, _, s, h => by
    rw [show declaredIn [.breakLoop keyword] = [] from rfl, declaring_nil]
    exact (notes_of_lookups h rfl).congr fun l => by simp [has_stmt, held]
  | .function d, hd, s, h => by
    have hbody := notes_function (hctx.trans (inClass_declaring xs [d.name.lexeme]).symm) .function
      d hd.inner _ (covers_introduce h d.name)
    exact (hbody.before (lookups_introduce s d.name)).congr fun l => by simp [has_stmt, held]
  | .returnFrom keyword none, _, s, h => by
    obtain ⟨hlayers, hlookups⟩ := returnPlace_eq s ctx keyword none
    rw [show declaredIn [.returnFrom keyword none] = [] from rfl, declaring_nil]
    exact (notes_of_lookups (hlayers ▸ h) hlookups).congr fun l => by simp [has_stmt, held]
  | .returnFrom keyword (some e), _, s, h => by
    obtain ⟨hlayers, hlookups⟩ := returnPlace_eq s ctx keyword (some e)
    have he := notes_expr hctx e _ (hlayers.symm ▸ h)
    rw [show declaredIn [.returnFrom keyword (some e)] = [] from rfl, declaring_nil]
    exact (he.before hlookups).congr fun l => by simp [has_stmt, held]
  | .classDecl name methods statics, hd, s, h => by
    have hinner : ∀ d ∈ methods ++ statics, ∀ b ∈ d.body, b.Orderly := fun d hd' b hb =>
      hd.inner b (List.mem_flatMap.mpr ⟨d, hd', hb⟩)
    have hname := covers_introduce h name
    have hmethods := @notes_methodList { ctx with inClass := true }
      (⟨.methods, ["this"]⟩ :: declaring xs [name.lexeme]) rfl methods
      (fun d hd' => hinner d (List.mem_append_left _ hd')) _ (covers_openThis hname .methods name)
    have hfirst := hmethods.closed.before (lookups_introduce s name)
    simp only [stmt]
    split
    · rename_i hempty
      obtain rfl := List.isEmpty_iff.mp hempty
      exact hfirst.congr fun l => by simp [has_stmt, held]
    · have hstatics := @notes_staticList { ctx with inClass := true }
        (⟨.statics, ["this"]⟩ :: declaring xs [name.lexeme]) rfl statics
        (fun d hd' => hinner d (List.mem_append_right _ hd')) _
        (covers_openThis hfirst.layers .statics name)
      refine (hfirst.trans hstatics.closed).congr fun l => ?_
      simp [has_stmt, held, or_and_right, exists_or]

theorem notes_stmts {ctx : Context} {xs : List Enclosure} (hctx : ctx.inClass = inClass xs) :
    ∀ body, (∀ d ∈ body, d.Orderly) → ∀ s, Covers s.layers xs →
      Notes (Has ⟨.stmts body, xs⟩) (declaring xs (declaredIn body)) s (stmts ctx body s)
  | [], _, s, h => by
    rw [show declaredIn [] = [] from rfl, declaring_nil]
    exact (notes_of_lookups h rfl).congr fun l => (iff_false_intro not_has_stmts_nil).symm
  | d :: ds, hds, s, h => by
    have hfirst := notes_stmt hctx d (hds d (List.mem_cons_self ..)) s h
    have hrest := notes_stmts (hctx.trans (inClass_declaring xs (declaredIn [d])).symm) ds
      (fun b hb => hds b (List.mem_cons_of_mem _ hb)) _ hfirst.layers
    rw [declaring_declaring, ← declaredIn_append] at hrest
    exact (hfirst.trans hrest).congr fun l => has_stmts_cons.symm

theorem notes_function {ctx : Context} {xs : List Enclosure} (hctx : ctx.inClass = inClass xs)
    (body : Body) : ∀ d, (∀ b ∈ d.body, b.Orderly) → ∀ s, Covers s.layers xs →
      Notes (Has ⟨.function body d, xs⟩) xs s (function ctx body d s)
  | .mk name params code, hd, s, h => by
    obtain ⟨hparams, hlookups⟩ := notes_params (params.getD []) (covers_openLayer h .function)
    have hcode := @notes_stmts { ctx with body }
      (⟨.function, params.getD [] |>.map (·.lexeme)⟩ :: xs) hctx code hd _ hparams
    exact (hcode.before hlookups).closed.congr
      fun l => (@has_function xs l body (.mk name params code)).symm

theorem notes_methodList {ctx : Context} {xs : List Enclosure} (hctx : ctx.inClass = inClass xs) :
    ∀ ds, (∀ d ∈ ds, ∀ b ∈ d.body, b.Orderly) → ∀ s, Covers s.layers xs →
      Notes (fun l => ∃ d ∈ ds, Has ⟨.function (methodBody d) d, xs⟩ l) xs s (methodList ctx ds s)
  | [], _, s, h => (notes_of_lookups h rfl).congr fun l => by simp
  | d :: ds, hds, s, h => by
    have hfirst := notes_function hctx (methodBody d) d (hds d (List.mem_cons_self ..)) s h
    have hrest := notes_methodList hctx ds (fun b hb => hds b (List.mem_cons_of_mem _ hb)) _
      hfirst.layers
    exact (hfirst.trans hrest).congr fun l => by simp

theorem notes_staticList {ctx : Context} {xs : List Enclosure} (hctx : ctx.inClass = inClass xs) :
    ∀ ds, (∀ d ∈ ds, ∀ b ∈ d.body, b.Orderly) → ∀ s, Covers s.layers xs →
      Notes (fun l => ∃ d ∈ ds, Has ⟨.function .method d, xs⟩ l) xs s (staticList ctx ds s)
  | [], _, s, h => (notes_of_lookups h rfl).congr fun l => by simp
  | d :: ds, hds, s, h => by
    have hfirst := notes_function hctx .method d (hds d (List.mem_cons_self ..)) s h
    have hrest := notes_staticList hctx ds (fun b hb => hds b (List.mem_cons_of_mem _ hb)) _
      hfirst.layers
    exact (hfirst.trans hrest).congr fun l => by simp

end

end Survey

/-! ### Whole inputs -/

open Site Enclosure

/-- What is noted in an input is what its sites give. -/
lemma mem_lookups_ofInput {input : Grammar.Input} (h : (rootOf input).Orderly) (l : Lookup) :
    l ∈ (ofInput input).lookups ↔ ∃ p, Stands input p ∧ p.lookup? = some l := by
  have hnotes : Survey.Notes (Has ⟨rootOf input, []⟩ ) [] .empty
      ((rootOf input).survey .outermost .empty) := by
    cases input with
    | expression e => exact Survey.notes_expr rfl e .empty .nil
    | statements body => exact @Survey.notes_stmts .outermost [] rfl body h .empty .nil
  obtain ⟨more, hmore, hl⟩ := hnotes.lookups
  rw [findings_ofInput, Survey.findings, List.mem_reverse, hmore]
  exact (by simp : l ∈ more ++ [] ↔ l ∈ more).trans (hl l)

lemma distance?_eq_some_iff {xs : List Enclosure} {name : String} {d : ℕ} :
    distance? xs name = some d ↔ (∃ x, xs[d]? = some x ∧ name ∈ x.names) ∧
      ∀ i < d, ∀ x, xs[i]? = some x → name ∉ x.names := by
  unfold distance?
  rw [List.findIdx?_eq_some_iff_getElem]
  constructor
  · rintro ⟨hd, hfound, hfirst⟩
    refine ⟨⟨xs[d], List.getElem?_eq_getElem hd, of_decide_eq_true hfound⟩, fun i hi x hx => ?_⟩
    obtain ⟨hlt, rfl⟩ := List.getElem?_eq_some_iff.mp hx
    simpa using hfirst i hi
  · rintro ⟨⟨x, hx, hname⟩, hfirst⟩
    obtain ⟨hlt, rfl⟩ := List.getElem?_eq_some_iff.mp hx
    refine ⟨hlt, decide_eq_true hname, fun i hi => ?_⟩
    simpa using hfirst i hi _ (List.getElem?_eq_getElem (hi.trans hlt))

lemma distance?_eq_none_iff {xs : List Enclosure} {name : String} :
    distance? xs name = none ↔ ∀ x ∈ xs, name ∉ x.names := by
  unfold distance?
  simp

lemma lookup?_eq_some_iff {p : Site} {l : Lookup} : p.lookup? = some l ↔
    p.occurrence? = some (l.id, l.name) ∧ l.depth = distance? p.scopes l.name := by
  obtain ⟨id, name, depth⟩ := l
  unfold lookup?
  rw [Option.map_eq_some_iff]
  constructor
  · rintro ⟨⟨i, n⟩, hp, h⟩
    cases h
    exact ⟨hp, rfl⟩
  · rintro ⟨hp, hdepth⟩
    exact ⟨_, hp, congrArg (Lookup.mk id name) hdepth.symm⟩

/-- What an input adds to the distances is exact: each variable that is read, each target of an
assignment and each `this` inside a class is visited once, and recorded is how many scopes outward
the innermost scope stands that has the name. Nothing is recorded just if no scope around has it. -/
theorem distances_exact {mode : Grammar.Mode} {source : String} {firstId : NodeId}
    {input : Grammar.Input} (hread : (Grammar.read mode source firstId).result = .ok input)
    {known : Distances} (hknown : ∀ id, firstId ≤ id → known[id]? = none) :
    let visited := (ofInput input).lookups.map (·.id)
    let recorded := known.addAll (ofInput input).lookups
    (rootOf input).ids.Nodup ∧ visited.Nodup ∧
    (∀ id, id ∈ visited ↔ ∃ p name, Stands input p ∧ p.occurrence? = some (id, name)) ∧
    (∀ p id name, Stands input p → p.occurrence? = some (id, name) →
      (∀ d, recorded[id]? = some d ↔ (∃ x, p.scopes[d]? = some x ∧ name ∈ x.names) ∧
        ∀ i < d, ∀ x, p.scopes[i]? = some x → name ∉ x.names) ∧
      (recorded[id]? = none ↔ ∀ x ∈ p.scopes, name ∉ x.names)) ∧
    ∀ id ∉ visited, recorded[id]? = known[id]? := by
  intro visited recorded
  have hinput := readInput_read hread
  have hmem := mem_lookups_ofInput hinput.orderly
  have hvisited : visited.Nodup := nodup_of_subperm (lookups_ids input) hinput.fresh.nodup
  refine ⟨hinput.fresh.nodup, hvisited, fun id => ?_, fun p id name hp hname => ?_,
    fun id hid => getElem?_addAll_of_notMem hid⟩
  · rw [List.mem_map]
    constructor
    · rintro ⟨l, hl, rfl⟩
      obtain ⟨p, hp, hlookup⟩ := (hmem l).mp hl
      exact ⟨p, l.name, hp, (lookup?_eq_some_iff.mp hlookup).1⟩
    · rintro ⟨p, name, hp, hname⟩
      exact ⟨⟨id, name, distance? p.scopes name⟩,
        (hmem _).mpr ⟨p, hp, lookup?_eq_some_iff.mpr ⟨hname, rfl⟩⟩, rfl⟩
  · have hl := (hmem ⟨id, name, distance? p.scopes name⟩).mpr
      ⟨p, hp, lookup?_eq_some_iff.mpr ⟨hname, rfl⟩⟩
    have hnew := hknown id (Recorded.bounds_lookups hinput hl).1
    have hrecorded : recorded[id]? = distance? p.scopes name := getElem?_addAll hl hvisited hnew
    rw [hrecorded]
    exact ⟨fun d => distance?_eq_some_iff, distance?_eq_none_iff⟩

/-- A parameter hides the variable around the function, in its body and in the block there. -/
theorem distances_exact_parameter :
    let source := "\x7b var a; fun f(a) \x7b print a; \x7b print a; \x7d \x7d f(a); \x7d"
    ∃ input, (Grammar.read .program source 0).result = .ok input ∧
      (ofInput input).lookups =
        [⟨0, "a", some 0⟩, ⟨1, "a", some 1⟩, ⟨2, "f", some 0⟩, ⟨3, "a", some 0⟩] ∧
      ∀ p, Stands input p → p.occurrence? = some (1, "a") →
        (∃ x, p.scopes[1]? = some x ∧ "a" ∈ x.names) ∧
          ∀ x, p.scopes[0]? = some x → "a" ∉ x.names := by
  intro source
  have hlookups : (Grammar.read .program source 0).result.toOption.map
      (fun input => (ofInput input).lookups) =
      some [⟨0, "a", some 0⟩, ⟨1, "a", some 1⟩, ⟨2, "f", some 0⟩, ⟨3, "a", some 0⟩] := by
    decide +kernel
  obtain ⟨input, hinput, hl⟩ := Option.map_eq_some_iff.mp hlookups
  have hread : (Grammar.read .program source 0).result = .ok input := by
    revert hinput
    cases (Grammar.read .program source 0).result with
    | error => exact nofun
    | ok => exact fun h => congrArg _ (Option.some.inj h)
  have hempty : ∀ id, 0 ≤ id → ({} : Distances)[id]? = none :=
    fun _ _ => Std.TreeMap.getElem?_emptyc
  obtain ⟨-, hvisited, -, hexact, -⟩ := distances_exact hread hempty
  refine ⟨input, hread, hl, fun p hp hname => ?_⟩
  have hrecorded : (({} : Distances).addAll (ofInput input).lookups)[1]? = some 1 :=
    getElem?_addAll (l := ⟨1, "a", some 1⟩) (by rw [hl]; decide) hvisited (hempty 1 (Nat.zero_le 1))
  obtain ⟨hfound, hfirst⟩ := ((hexact p 1 "a" hp hname).1 1).mp hrecorded
  exact ⟨hfound, hfirst 0 Nat.zero_lt_one⟩

end Lox.Scope
