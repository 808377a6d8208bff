import Lox.Proofs.Scope.Adding

/-!
Which complaints an input gets about where `return` and `this` stand.

Each `return` and each `this` of a tree is listed with the functions and methods around it. What is
wrong with its place can be told from these alone, and surveys, which pass one context down the
tree, report exactly that, in the same order.
-/

namespace Lox.Scope

/-- What a piece of code is part of: a function, an instance method or a static method. -/
inductive Holder
  | function (d : FunctionDecl)
  | method (d : FunctionDecl)
  | static (d : FunctionDecl)

namespace Holder

/-- Methods stand in the declaration of a class. -/
def isMember : Holder → Bool
  | function _ => false
  | method _ => true
  | static _ => true

/-- The instance method `init`, with parameters or as a getter. -/
def isInitializer : Holder → Bool
  | method d => d.name.lexeme = "init"
  | _ => false

/-- What a survey takes the code for. -/
def body : Holder → Body
  | function _ => .function
  | method d => Survey.methodBody d
  | static _ => .method

variable {h : Holder}

lemma body_ne_topLevel : h.body ≠ .topLevel := by
  cases h with
  | method d => by_cases hname : d.name.lexeme = "init" <;> simp [body, Survey.methodBody, hname]
  | _ => simp [body]

lemma body_eq_initializer : h.body = .initializer ↔ h.isInitializer = true := by
  cases h with
  | method d =>
    by_cases hname : d.name.lexeme = "init" <;>
      simp [body, Survey.methodBody, isInitializer, hname]
  | _ => simp [body, isInitializer]

end Holder

/-- A `return` or a `this`, with all that it is part of, innermost first. -/
inductive Spot
  | returned (keyword : Token) (value : Option Expr) (around : List Holder)
  | this (keyword : Token) (around : List Holder)

namespace Spot

def keyword : Spot → Token
  | returned keyword _ _ => keyword
  | this keyword _ => keyword

/-- A `return` in no function and no method. -/
def returnsFromTopLevel : Spot → Bool
  | returned _ _ around => around.isEmpty
  | this .. => false

/-- A `return` with a value, where the innermost function around it is an initializer. -/
def returnsFromInitializer : Spot → Bool
  | returned _ value around => value.isSome && around.head?.any Holder.isInitializer
  | this .. => false

/-- A `this` in no declaration of a class. -/
def isOutsideClass : Spot → Bool
  | returned .. => false
  | this _ around => !around.any Holder.isMember

/-- What is wrong with the place. -/
def faults (p : Spot) : List Fault :=
  (if p.returnsFromTopLevel then [.returnFromTopLevel] else []) ++
    (if p.returnsFromInitializer then [.valueFromInitializer] else []) ++
    if p.isOutsideClass then [.thisOutsideClass] else []

/-- Each of the faults is there at most once. -/
lemma filter_faults (p : Spot) :
    p.faults.filter (· = .returnFromTopLevel) =
        (if p.returnsFromTopLevel then [.returnFromTopLevel] else []) ∧
      p.faults.filter (· = .valueFromInitializer) =
        (if p.returnsFromInitializer then [.valueFromInitializer] else []) ∧
      p.faults.filter (· = .thisOutsideClass) =
        (if p.isOutsideClass then [.thisOutsideClass] else []) := by
  unfold faults
  cases p.returnsFromTopLevel <;> cases p.returnsFromInitializer <;> cases p.isOutsideClass <;>
    exact ⟨rfl, rfl, rfl⟩

end Spot

end Scope

/-! ### All the places in a tree -/

open Scope (Holder Spot)

mutual

/-- Each `this` in an expression. -/
def Expr.spots (around : List Holder) : Expr → List Spot
  | .literal _ => []
  | .group e => e.spots around
  | .unary _ e => e.spots around
  | .binary l _ r => l.spots around ++ r.spots around
  | .logical l _ r => l.spots around ++ r.spots around
  | .conditional c t e => c.spots around ++ t.spots around ++ e.spots around
  | .reference .. => []
  | .assign _ _ value => value.spots around
  | .call callee _ arguments => callee.spots around ++ Expr.spotsOf around arguments
  | .property object _ => object.spots around
  | .setProperty object _ value => value.spots around ++ object.spots around
  | .this _ keyword => [.this keyword around]

def Expr.spotsOf (around : List Holder) : List Expr → List Spot
  | [] => []
  | e :: es => e.spots around ++ Expr.spotsOf around es

end

mutual

/-- Each `return` and each `this` in a statement. -/
def Stmt.spots (around : List Holder) : Stmt → List Spot
  | .expression e => e.spots around
  | .print e => e.spots around
  | .declare _ none => []
  | .declare _ (some e) => e.spots around
  | .block body => Stmt.spotsOf around body
  | .branch c t none => c.spots around ++ t.spots around
  | .branch c t (some e) => c.spots around ++ t.spots around ++ e.spots around
  | .loop c body => c.spots around ++ body.spots around
  | .breakLoop _ => []
  | .function d => d.spots (.function d :: around)
  | .returnFrom keyword none => [.returned keyword none around]
  | .returnFrom keyword (some e) => .returned keyword (some e) around :: e.spots around
  | .classDecl _ methods statics =>
    FunctionDecl.spotsOf .method around methods ++ FunctionDecl.spotsOf .static around statics

def Stmt.spotsOf (around : List Holder) : List Stmt → List Spot
  | [] => []
  | d :: ds => d.spots around ++ Stmt.spotsOf around ds

def FunctionDecl.spots (around : List Holder) : FunctionDecl → List Spot
  | .mk _ _ body => Stmt.spotsOf around body

def FunctionDecl.spotsOf (holder : FunctionDecl → Holder) (around : List Holder) :
    List FunctionDecl → List Spot
  | [] => []
  | d :: ds => d.spots (holder d :: around) ++ FunctionDecl.spotsOf holder around ds

end

namespace Scope

/-- Each `return` and each `this` of an input, in the order in which a survey comes to them. -/
def spots : Grammar.Input → List Spot
  | .expression e => e.spots []
  | .statements body => Stmt.spotsOf [] body

/-! ### What a survey reports -/

/-- Whether a complaint is about the place where something stands. -/
def ofPlacement (c : Complaint) : Bool :=
  c.isOf .returnFromTopLevel || c.isOf .valueFromInitializer || c.isOf .thisOutsideClass

/-- What there is to complain of at a place. -/
def Spot.complaints (p : Spot) : List Complaint := p.faults.map (about · p.keyword)

/-- The context that a survey passes to code that is part of the given functions and methods. -/
def contextOf (around : List Holder) : Context where
  body := match around with
    | [] => .topLevel
    | h :: _ => h.body
  inClass := around.any Holder.isMember

namespace Survey

/-- The second survey goes on from the first, with the complaints about the given places. -/
abbrev Passes (ps : List Spot) : Survey → Survey → Prop :=
  Adds ofPlacement (ps.flatMap Spot.complaints)

section
variable {s s' s'' : Survey} {ps qs : List Spot} {around : List Holder}

lemma Passes.append (h : Passes ps s s') (h' : Passes qs s' s'') : Passes (ps ++ qs) s s'' := by
  rw [Passes, List.flatMap_append]
  exact h.trans h'

/-- One place, where the survey complains of each fault. -/
lemma passes_of_complaints {p : Spot}
    (h : s'.complaints = p.complaints.reverse ++ s.complaints) : Passes [p] s s' := by
  have hall : p.complaints.filter ofPlacement = p.complaints := by
    unfold Spot.complaints Spot.faults
    cases p.returnsFromTopLevel <;> cases p.returnsFromInitializer <;> cases p.isOutsideClass <;>
      rfl
  have hp := adds_of_complaints ofPlacement h
  rw [hall] at hp
  rwa [Passes, List.flatMap_singleton]

/-- A scope of its own around a part adds nothing. -/
lemma Passes.inLayer {l : Layer} (h : Passes ps (s.openLayer l) s') : Passes ps s s'.closeLayer := by
  have hboth := h.trans (adds_closeLayer_nothing (fun _ => rfl) s')
  rwa [List.append_nil] at hboth

/-! ### Places -/

lemma passes_this (s : Survey) (id : NodeId) (keyword : Token) :
    Passes [.this keyword around] s (expr (contextOf around) (.this id keyword) s) := by
  refine passes_of_complaints ?_
  rw [expr]
  cases hmember : around.any Holder.isMember <;>
    simp [contextOf, hmember, Spot.complaints, Spot.faults, Spot.returnsFromTopLevel,
      Spot.returnsFromInitializer, Spot.isOutsideClass, Spot.keyword, complain, about, refer]

lemma passes_returnPlace (s : Survey) (keyword : Token) (value : Option Expr) :
    Passes [.returned keyword value around] s
      (s.returnPlace (contextOf around) keyword value) := by
  refine passes_of_complaints ?_
  unfold returnPlace Spot.complaints Spot.faults Spot.returnsFromTopLevel
    Spot.returnsFromInitializer Spot.isOutsideClass
  cases around with
  | nil => simp [contextOf, Spot.keyword, complain, about]
  | cons h hs =>
    cases hi : h.isInitializer <;> cases hv : value.isSome <;>
      simp [contextOf, h.body_ne_topLevel, Holder.body_eq_initializer, hi, hv, Spot.keyword,
        complain, about]

/-! ### Trees -/

mutual

theorem passes_expr (around : List Holder) : ∀ (e : Expr) (s : Survey),
    Passes (e.spots around) s (expr (contextOf around) e s)
  | .literal _, s => .refl _ s
  | .group e, s => passes_expr around e s
  | .unary _ e, s => passes_expr around e s
  | .binary l _ r, s => (passes_expr around l s).append (passes_expr around r _)
  | .logical l _ r, s => (passes_expr around l s).append (passes_expr around r _)
  | .conditional c t e, s =>
    ((passes_expr around c s).append (passes_expr around t _)).append (passes_expr around e _)
  | .reference id name, s => adds_readName (fun _ => rfl) s id name
  | .assign _ _ value, s => passes_expr around value s
  | .call callee _ arguments, s =>
    (passes_expr around callee s).append (passes_exprs around arguments _)
  | .property object _, s => passes_expr around object s
  | .setProperty object _ value, s =>
    (passes_expr around value s).append (passes_expr around object _)
  | .this id keyword, s => passes_this s id keyword

theorem passes_exprs (around : List Holder) : ∀ (es : List Expr) (s : Survey),
    Passes (Expr.spotsOf around es) s (exprs (contextOf around) es s)
  | [], s => .refl _ s
  | e :: es, s => (passes_expr around e s).append (passes_exprs around es _)

end

/-- The value of a variable is surveyed between its declaration and its definition. -/
lemma passes_declared (name : Token) (e : Expr) (s : Survey) :
    Passes (e.spots around) s ((expr (contextOf around) e (s.declare name)).define name) := by
  have h := ((adds_declare (fun _ => rfl) s name).trans (passes_expr around e _)).trans
    (adds_define _ name)
  rwa [List.nil_append, List.append_nil] at h

/-- Inside a class each method is surveyed in the context of its own. -/
lemma contextOf_member {h : Holder} (hmember : h.isMember) (around : List Holder) :
    ({ body := h.body, inClass := true } : Context) = contextOf (h :: around) := by
  simp [contextOf, hmember]

mutual

theorem passes_stmt (around : List Holder) : ∀ (d : Stmt) (s : Survey),
    Passes (d.spots around) s (stmt (contextOf around) d s)
  | .expression e, s => passes_expr around e s
  | .print e, s => passes_expr around e s
  | .declare name none, s => adds_introduce (fun _ => rfl) s name
  | .declare name (some e), s => passes_declared name e s
  | .block body, s => (passes_stmts around body (s.openLayer [])).inLayer
  | .branch c t none, s => (passes_expr around c s).append (passes_stmt around t _)
  | .branch c t (some e), s =>
    ((passes_expr around c s).append (passes_stmt around t _)).append (passes_stmt around e _)
  | .loop c body, s => (passes_expr around c s).append (passes_stmt around body _)
  | .breakLoop _, s => .refl _ s
  | .function d, s =>
    (adds_introduce (fun _ => rfl) s d.name).trans (passes_function (.function d :: around) d _ rfl)
  | .returnFrom keyword none, s => passes_returnPlace s keyword none
  | .returnFrom keyword (some e), s =>
    (passes_returnPlace s keyword (some e)).append (passes_expr around e _)
  | .classDecl name methods statics, s => by
    have hmethods := (adds_introduce (fun _ => rfl) s name).trans
      (passes_methodList (contextOf around).body around methods
        ((s.introduce name).openLayer (.ofThis name))).inLayer
    rw [stmt, Stmt.spots]
    split
    · -- without static methods there is no scope for them
      rename_i hnone
      rw [List.isEmpty_iff.mp hnone]
      exact Passes.append hmethods (.refl _ _)
    · exact Passes.append hmethods (passes_staticList _ around statics _).inLayer

theorem passes_stmts (around : List Holder) : ∀ (ds : List Stmt) (s : Survey),
    Passes (Stmt.spotsOf around ds) s (stmts (contextOf around) ds s)
  | [], s => .refl _ s
  | d :: ds, s => (passes_stmt around d s).append (passes_stmts around ds _)

/-- A function sets the body that its code is part of, and nothing else. -/
theorem passes_function (around : List Holder) : ∀ (d : FunctionDecl) (s : Survey)
    {ctx : Context} {body : Body}, { ctx with body } = contextOf around →
    Passes (d.spots around) s (function ctx body d s)
  | .mk _ params code, s, ctx, body, hctx => by
    rw [function, hctx]
    exact Passes.inLayer ((adds_params (fun _ => rfl) (params.getD []) (s.openLayer [])).trans
      (passes_stmts around code _))

theorem passes_methodList (body : Body) (around : List Holder) :
    ∀ (ds : List FunctionDecl) (s : Survey), Passes (FunctionDecl.spotsOf .method around ds) s
      (methodList { body, inClass := true } ds s)
  | [], s => .refl _ s
  | d :: ds, s =>
    have hcontext := contextOf_member (h := .method d) rfl around
    (passes_function (.method d :: around) d s hcontext).append (passes_methodList body around ds _)

theorem passes_staticList (body : Body) (around : List Holder) :
    ∀ (ds : List FunctionDecl) (s : Survey), Passes (FunctionDecl.spotsOf .static around ds) s
      (staticList { body, inClass := true } ds s)
  | [], s => .refl _ s
  | d :: ds, s =>
    have hcontext := contextOf_member (h := .static d) rfl around
    (passes_function (.static d :: around) d s hcontext).append (passes_staticList body around ds _)

end

end

end Survey

/-- The complaints about places, in order. -/
lemma complaints_ofPlacement (input : Grammar.Input) :
    (ofInput input).complaints.filter ofPlacement = (spots input).flatMap Spot.complaints := by
  have hall : Survey.Passes (spots input) .empty
      ((rootOf input).survey (contextOf []) .empty) := by
    cases input with
    | expression e => exact Survey.passes_expr [] e .empty
    | statements body => exact Survey.passes_stmts [] body .empty
  rw [findings_ofInput]
  exact hall.findings

/-- The complaints about one fault are those about the places that have it. -/
lemma filter_complaints {f : Fault} {wrong : Spot → Bool}
    (hp : ∀ p : Spot, p.faults.filter (· = f) = if wrong p then [f] else []) (ps : List Spot) :
    (ps.flatMap Spot.complaints).filter (·.isOf f) =
      ((ps.filter wrong).map (·.keyword)).map (about f) := by
  induction ps with
  | nil => rfl
  | cons p ps ih =>
    have hone : p.complaints.filter (·.isOf f) =
        (p.faults.filter (· = f)).map (about · p.keyword) := by
      rw [Spot.complaints, List.filter_map]
      rfl
    rw [List.flatMap_cons, List.filter_append, ih, hone, hp]
    cases hw : wrong p <;> simp [hw]

/-- It is reported of each `return` in no function and no method, of each `return` with a value
that leaves an initializer, and of each `this` in no class, once and in order, that it stands where
it must not, and of nothing else. -/
theorem places_reported (input : Grammar.Input) :
    (ofInput input).complaints.filter (·.isOf .returnFromTopLevel) =
        (((spots input).filter (·.returnsFromTopLevel)).map (·.keyword)).map
          (about .returnFromTopLevel) ∧
      (ofInput input).complaints.filter (·.isOf .valueFromInitializer) =
        (((spots input).filter (·.returnsFromInitializer)).map (·.keyword)).map
          (about .valueFromInitializer) ∧
      (ofInput input).complaints.filter (·.isOf .thisOutsideClass) =
        (((spots input).filter (·.isOutsideClass)).map (·.keyword)).map
          (about .thisOutsideClass) := by
  have hplaces : ∀ f : Fault, (∀ c : Complaint, c.isOf f → ofPlacement c) →
      (ofInput input).complaints.filter (·.isOf f) =
        ((spots input).flatMap Spot.complaints).filter (·.isOf f) := by
    intro f hf
    rw [← complaints_ofPlacement, List.filter_filter]
    refine List.filter_congr fun c _ => ?_
    rw [Bool.eq_iff_iff, Bool.and_eq_true]
    exact ⟨fun hc => ⟨hc, hf c hc⟩, And.left⟩
  refine ⟨?_, ?_, ?_⟩
  · rw [hplaces _ fun c hc => by simp [ofPlacement, hc]]
    exact filter_complaints (fun p => p.filter_faults.1) (spots input)
  · rw [hplaces _ fun c hc => by simp [ofPlacement, hc]]
    exact filter_complaints (fun p => p.filter_faults.2.1) (spots input)
  · rw [hplaces _ fun c hc => by simp [ofPlacement, hc]]
    exact filter_complaints (fun p => p.filter_faults.2.2) (spots input)

/-- The end of a function does not end the initializer around it, and a static method is no
initializer. -/
example : (Grammar.read .program
      ("class A \x7b init \x7b fun f() \x7b return 1; \x7d return f; \x7d " ++
        "class init() \x7b return 2; \x7d \x7d this;") 0).result.toOption.map (fun input => (ofInput input).complaints) =
    some [.scope 1 (.token "return") .valueFromInitializer,
      .scope 1 (.token "this") .thisOutsideClass] := by
  decide +kernel

end Scope
end Lox
