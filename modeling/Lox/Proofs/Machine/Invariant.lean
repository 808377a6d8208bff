import Lox.Proofs.Machine.Scene

/-!
What holds between any two steps of the machine.

Frames bind no names but those of their scopes, and all names that had a value where the running
code was surveyed. Every function that can be reached carries an environment that fits its
declaration, and so does all that waits for a value.
-/

namespace Lox

namespace Table

variable {α : Type} {t : Table α} {name other : String} {a : α}

lemma contains_insert :
    (t.insert name a).contains other ↔ name = other ∨ t.contains other := by
  unfold contains
  rw [get?_insert]
  split <;> simp_all

lemma contains_foldl_insert {pairs : List (String × α)} :
    (pairs.foldl (fun t (n, a) => t.insert n a) t).contains name ↔
      name ∈ pairs.map (·.1) ∨ t.contains name := by
  induction pairs generalizing t with
  | nil => simp
  | cons p pairs ih =>
    rw [List.foldl_cons, ih, contains_insert, List.map_cons, List.mem_cons]
    grind

lemma get?_foldl_insert {pairs : List (String × α)}
    (h : (pairs.foldl (fun t (n, a) => t.insert n a) t).get? name = some a) :
    (name, a) ∈ pairs ∨ t.get? name = some a := by
  induction pairs generalizing t with
  | nil => exact .inr h
  | cons p pairs ih =>
    rcases ih h with h | h
    · exact .inl (List.mem_cons_of_mem _ h)
    · rw [get?_insert] at h
      split at h
      · rename_i hn
        obtain rfl := Option.some.inj h
        exact .inl (hn ▸ List.mem_cons_self ..)
      · exact .inr h

lemma contains_ofList {pairs : List (String × α)} :
    (ofList pairs).contains name ↔ name ∈ pairs.map (·.1) := by
  unfold ofList
  rw [contains_foldl_insert]
  simp [contains]

lemma mem_of_get?_ofList {pairs : List (String × α)} (h : (ofList pairs).get? name = some a) :
    (name, a) ∈ pairs :=
  (get?_foldl_insert h).resolve_right nofun

end Table

namespace Frames

variable {α : Type} {s : Frames α} {f g : FrameId} {name other : String} {a : α} {t : Table α}

lemma binds_write : (s.write f name a).binds other g ↔
    (f = g ∧ name = other ∧ f < s.next) ∨ s.binds other g := by
  unfold binds
  rw [own?_write]
  split
  · rename_i h
    exact ⟨fun _ => .inl h, fun _ => rfl⟩
  · rename_i h
    exact ⟨.inr, fun h' => h'.resolve_left h⟩

lemma lt_next_of_binds (h : s.binds name f) : f < s.next := by
  unfold binds own? at h
  by_contra hlt
  rw [Array.getElem?_eq_none (not_lt.mp hlt)] at h
  exact nomatch h

lemma binds_push : (s.push t).binds other g ↔
    (g = s.next ∧ t.contains other) ∨ s.binds other g := by
  constructor
  · intro h
    unfold binds at h ⊢
    rw [own?_push] at h
    split at h
    · rename_i hg
      exact .inl ⟨hg, h⟩
    · exact .inr h
  · intro h
    unfold binds
    rw [own?_push]
    rcases h with ⟨rfl, h⟩ | h
    · rwa [if_pos rfl]
    · rwa [if_neg (lt_next_of_binds h).ne]

end Frames

namespace Machine

open Scope

/-! ### Scenes that follow each other -/

/-- The second scene comes after the first, and only frames from `h` on have new names. -/
structure Scene.Grows (h : FrameId) (x y : Scene) : Prop where
  inputs : x.inputs ⊆ y.inputs
  labels : x.labels <+: y.labels
  binds : ∀ name f, x.frames.binds name f → y.frames.binds name f
  same : ∀ name f, f < h → y.frames.binds name f → x.frames.binds name f

section
variable {x y : Scene} {h : FrameId} {env : Env} {S : Shape} {n : Node} {z : Region}

lemma Placed.mono (hp : Placed x env S n) (hg : x.Grows h y) : Placed y env S n := by
  obtain ⟨xs, ctx, s, hv, hm, hs⟩ := hp
  exact ⟨xs, ctx, s, hv.mono hg.inputs, hm.mono hg.labels, hs⟩

lemma PlacedIn.mono (hp : PlacedIn x env z S n) (hg : x.Grows h y) : PlacedIn y env z S n := by
  obtain ⟨xs, ctx, s, hv, hm, hs⟩ := hp
  exact ⟨xs, ctx, s, hv.mono hg.inputs, hm.mono hg.labels, hs⟩

end

/-! ### Names and frames -/

/-- The names that have a value are bound in the frames of their scopes. -/
def Bound (x : Scene) (env : Env) (S : Shape) : Prop :=
  ∀ (d : ℕ) (l : Standing) name, S[d]? = some l → l name = some true →
    ∃ f, env[d]? = some f ∧ x.frames.binds name f

/-- Moreover the current frame binds no other names. -/
structure Synced (x : Scene) (env : Env) (S : Shape) : Prop where
  bound : Bound x env S
  only : ∀ f (l : Standing) name, env[0]? = some f → S[0]? = some l → x.frames.binds name f →
    l name = some true

/-! ### Values -/

/-- The environment of a closure fits the survey of its declaration, and an initializer has `this`
in it. -/
structure ClosureOk (x : Scene) (c : Closure) : Prop where
  placed : ∃ S body, Placed x c.env S (.function body c.decl) ∧ Bound x c.env S
  initializer : c.isInitializer → ∃ f, c.env[0]? = some f ∧ x.frames.binds "this" f

/-- The environment of a method lacks the frame in which it is bound to an object. -/
def MethodOk (x : Scene) (c : Closure) : Prop :=
  ∃ y S body, y.IsThis ∧ PlacedIn x c.env y (Layer.thisStanding :: S) (.function body c.decl) ∧
    Bound x c.env S

structure ClassOk (x : Scene) (c : ClassInfo) : Prop where
  methods : ∀ name f, c.methods.get? name = some f → MethodOk x f
  statics : ∀ name f, c.statics.get? name = some f → MethodOk x f

def ValueOk (x : Scene) : Value → Prop
  | .function _ c => ClosureOk x c
  | .classValue _ c => ClassOk x c
  | .object _ c => ClassOk x c
  | _ => True

def ExitOk (x : Scene) : Exit → Prop
  | .leaveCall v => ValueOk x v
  | _ => True

/-- Frames and fields. -/
structure WorldOk (x : Scene) (w : World) : Prop where
  frames : w.frames = x.frames
  length : x.labels.length = w.frames.next
  declared : ∀ f y name, x.labels[f]? = some (some y) → w.frames.binds name f → y.Declares name
  this : ∀ f y, x.labels[f]? = some (some y) → y.IsThis →
    ∀ name, w.frames.binds name f ↔ name = "this"
  values : ∀ f name v, w.frames.own? f name = some v → ValueOk x v
  fields : ∀ owner name v, w.field? owner name = some v → ValueOk x v

/-! ### What waits -/

/-- What is waited for: the value of an expression, the end of a statement, the end of one that may
declare a name, or the end of a whole body. -/
inductive Stage
  | expression
  | statement
  | declaration
  | body

/-- What waits for a value within an expression. -/
def OperandOk (x : Scene) (env : Env) (S : Shape) : Pending → Prop
  | .unary _ => True
  | .binaryLeft _ right => Placed x env S (.expr right)
  | .binaryRight left _ => ValueOk x left
  | .logical _ right => Placed x env S (.expr right)
  | .conditional t e => Placed x env S (.expr t) ∧ Placed x env S (.expr e)
  | .assign id name => ∃ e, Placed x env S (.expr (.assign id name e))
  | .callee _ arguments => ∀ e ∈ arguments, Placed x env S (.expr e)
  | .argument callee _ found rest =>
    ValueOk x callee ∧ (∀ v ∈ found, ValueOk x v) ∧ ∀ e ∈ rest, Placed x env S (.expr e)
  | .property _ => True
  | .target _ value => Placed x env S (.expr value)
  | .field .. => True
  | .construct object => ValueOk x object
  | _ => False

/-- What waits for the value of the expression of a statement that declares nothing. -/
def StatementOk (x : Scene) (env : Env) (S : Shape) : Pending → Prop
  | .discard => True
  | .print => True
  | .giveBack => True
  | .branch t e => ∀ b ∈ t :: e.toList, Placed x env S (.stmt b) ∧ b.declared? = none
  | .loopTest c body => Placed x env S (.stmt (.loop c body))
  | _ => False

/-- All that waits, the next first, in an environment and with what is known of names there.
Declarations run only directly in a body, and frames that are left come back in the order in which
they were created. -/
inductive Waits (x : Scene) : Stage → Env → Shape → List Pending → Prop
  | value : Waits x .expression Env.globals [] []
  | operand {env S p ps} : OperandOk x env S p → Waits x .expression env S ps →
      Waits x .expression env S (p :: ps)
  | head {env S p ps} : StatementOk x env S p → Waits x .statement env S ps →
      Waits x .expression env S (p :: ps)
  | initial {env S name e ps} : Placed x env S (.stmt (.declare name (some e))) →
      Waits x .declaration env (S.put name.lexeme true) ps →
      Waits x .expression env (S.put name.lexeme false) (.declare name :: ps)
  | loopBody {env S c body ps} : Placed x env S (.stmt (.loop c body)) → Synced x env S →
      Waits x .statement env S ps → Waits x .statement env S (.loopBody c body :: ps)
  | ofDeclaration {env S ps} : Waits x .declaration env S ps → Waits x .statement env S ps
  | sequence {env S rest ps} : Placed x env S (.stmts rest) → Waits x .body env S ps →
      Waits x .declaration env S (.sequence rest :: ps)
  | finish {S} : Waits x .body Env.globals S []
  | leaveBlock {env S env' S' ps} : env'.headD 0 < env.headD 0 → Synced x env' S' →
      Waits x .statement env' S' ps → Waits x .body env S (.leaveBlock env' :: ps)
  | leaveCall {env S env' S' c ps} : env'.headD 0 < env.headD 0 → Synced x env' S' →
      ClosureOk x c → Waits x .expression env' S' ps → Waits x .body env S (.leaveCall env' c :: ps)

/-- The stage at which a statement runs. -/
def stageOf (d : Stmt) : Stage := if d.declared?.isSome then .declaration else .statement

/-- What the machine has in hand fits what waits. -/
inductive Runs (x : Scene) (env : Env) (ps : List Pending) : Control → Prop
  | eval {S e} : Placed x env S (.expr e) → Synced x env S → Waits x .expression env S ps →
      Runs x env ps (.eval e)
  | exec {S d} : Placed x env S (.stmt d) → Synced x env S →
      Waits x (stageOf d) env (S.after d) ps → Runs x env ps (.exec d)
  | execAll {S S' body} : Placed x env S (.stmts body) → Synced x env S →
      Waits x .body env S' ps → Runs x env ps (.execAll body)
  | value {q S v} : ValueOk x v → Synced x env S → Waits x q env S ps → Runs x env ps (.value v)
  | exit {q S e} : ExitOk x e → Waits x q env S ps → Runs x env ps (.exit e)

/-- What holds of a machine apart from what it has in hand. -/
structure Steady (x : Scene) (m : Machine) : Prop where
  world : WorldOk x m.world
  head : m.env.headD 0 < x.labels.length

/-- What holds of a machine between two steps. -/
structure Invariant (x : Scene) (m : Machine) : Prop extends Steady x m where
  runs : Runs x m.env m.pending m.control

/-! ### Nothing is lost -/

section
variable {x y : Scene} {h : FrameId} {env : Env} {S : Shape}

lemma Bound.mono (hb : Bound x env S) (hg : x.Grows h y) : Bound y env S := by
  intro d l name hl hname
  obtain ⟨f, hf, hbinds⟩ := hb d l name hl hname
  exact ⟨f, hf, hg.binds name f hbinds⟩

lemma Synced.mono (hs : Synced x env S) (hg : x.Grows h y) (henv : env.headD 0 < h) :
    Synced y env S where
  bound := hs.bound.mono hg
  only f l name hf hl hbinds := by
    have hlt : f < h := by
      cases env with
      | nil => exact nomatch hf
      | cons g env =>
        obtain rfl : g = f := Option.some.inj hf
        exact henv
    exact hs.only f l name hf hl (hg.same name f hlt hbinds)

lemma ClosureOk.mono {c : Closure} (hc : ClosureOk x c) (hg : x.Grows h y) : ClosureOk y c := by
  obtain ⟨⟨S, body, hp, hb⟩, hinit⟩ := hc
  refine ⟨⟨S, body, hp.mono hg, hb.mono hg⟩, fun hc => ?_⟩
  obtain ⟨f, hf, hbinds⟩ := hinit hc
  exact ⟨f, hf, hg.binds _ f hbinds⟩

lemma MethodOk.mono {c : Closure} (hc : MethodOk x c) (hg : x.Grows h y) : MethodOk y c := by
  obtain ⟨z, S, body, hz, hp, hb⟩ := hc
  exact ⟨z, S, body, hz, hp.mono hg, hb.mono hg⟩

lemma ClassOk.mono {c : ClassInfo} (hc : ClassOk x c) (hg : x.Grows h y) : ClassOk y c :=
  ⟨fun name f hf => (hc.methods name f hf).mono hg, fun name f hf => (hc.statics name f hf).mono hg⟩

lemma ValueOk.mono {v : Value} (hv : ValueOk x v) (hg : x.Grows h y) : ValueOk y v := by
  cases v with
  | function id c => exact ClosureOk.mono hv hg
  | classValue id c => exact ClassOk.mono hv hg
  | object id c => exact ClassOk.mono hv hg
  | _ => trivial

lemma OperandOk.mono {p : Pending} (hp : OperandOk x env S p) (hg : x.Grows h y) :
    OperandOk y env S p := by
  cases p with
  | binaryLeft op right => exact Placed.mono hp hg
  | binaryRight left op => exact ValueOk.mono hp hg
  | logical op right => exact Placed.mono hp hg
  | conditional t e => exact ⟨hp.1.mono hg, hp.2.mono hg⟩
  | assign id name =>
    obtain ⟨e, he⟩ := hp
    exact ⟨e, he.mono hg⟩
  | callee paren arguments => exact fun e he => (hp e he).mono hg
  | argument callee paren found rest =>
    obtain ⟨hcallee, hfound, hrest⟩ := hp
    exact ⟨hcallee.mono hg, fun v hv => (hfound v hv).mono hg, fun e he => (hrest e he).mono hg⟩
  | target name value => exact Placed.mono hp hg
  | construct object => exact ValueOk.mono hp hg
  | _ => exact hp

lemma StatementOk.mono {p : Pending} (hp : StatementOk x env S p) (hg : x.Grows h y) :
    StatementOk y env S p := by
  cases p with
  | branch t e => exact fun b hb => ⟨(hp b hb).1.mono hg, (hp b hb).2⟩
  | loopTest c body => exact Placed.mono hp hg
  | _ => exact hp

/-- The frames whose names matter to what waits at a stage are those below this one: where a
declaration may still run, the current frame is not among them. -/
def Stage.limit (env : Env) : Stage → FrameId
  | .declaration => env.headD 0
  | .body => env.headD 0
  | _ => env.headD 0 + 1

lemma Waits.mono {q : Stage} {ps : List Pending} (hw : Waits x q env S ps) (hg : x.Grows h y)
    (hq : q.limit env ≤ h) : Waits y q env S ps := by
  induction hw with
  | value => exact .value
  | operand hp _ ih => exact .operand (hp.mono hg) (ih hq)
  | head hp _ ih => exact .head (hp.mono hg) (ih hq)
  | initial hp _ ih => exact .initial (hp.mono hg) (ih (Nat.le_of_succ_le hq))
  | loopBody hp hs _ ih => exact .loopBody (hp.mono hg) (hs.mono hg hq) (ih hq)
  | ofDeclaration _ ih => exact .ofDeclaration (ih (Nat.le_of_succ_le hq))
  | sequence hp _ ih => exact .sequence (hp.mono hg) (ih hq)
  | finish => exact .finish
  | leaveBlock hlt hs _ ih =>
    exact .leaveBlock hlt (hs.mono hg (lt_of_lt_of_le hlt hq)) (ih (le_trans hlt hq))
  | leaveCall hlt hs hc _ ih =>
    exact .leaveCall hlt (hs.mono hg (lt_of_lt_of_le hlt hq)) (hc.mono hg) (ih (le_trans hlt hq))

end

end Machine

end Lox
