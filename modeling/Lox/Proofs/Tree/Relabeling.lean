import Mathlib.Tactic.Common
import Lox.Complaint
import Lox.Grammar.Program
import Lox.Proofs.Grammar.Derivation

/-!
Trees with other numbers and lines.

What is read from a text depends on where its lines and the numbers of its nodes start. A
relabeling gives the nodes other numbers and the tokens other lines, and leaves all else as it is.
-/

namespace Lox

/-- Other numbers for nodes and other lines for tokens. -/
structure Relabeling where
  node : NodeId → NodeId
  line : ℕ → ℕ

namespace Relabeling

/-- Nothing is changed. -/
def same : Relabeling := ⟨id, id⟩

/-- First one relabeling, and then another. -/
def andThen (r r' : Relabeling) : Relabeling := ⟨r'.node ∘ r.node, r'.line ∘ r.line⟩

/-- Numbers and lines that start later. -/
def shift (ids lines : ℕ) : Relabeling := ⟨(· + ids), (· + lines)⟩

/-- The numbers of nodes are forgotten. -/
def unnumbered : Relabeling := ⟨fun _ => 0, id⟩

/-- The lines of tokens are forgotten. -/
def unlined : Relabeling := ⟨id, fun _ => 0⟩

end Relabeling

variable (r r' : Relabeling)

def Token.relabel (t : Token) : Token := { t with line := r.line t.line }

@[simp] lemma Token.kind_relabel (t : Token) : (t.relabel r).kind = t.kind := rfl

@[simp] lemma Token.lexeme_relabel (t : Token) : (t.relabel r).lexeme = t.lexeme := rfl

@[simp] lemma Token.line_relabel (t : Token) : (t.relabel r).line = r.line t.line := rfl

lemma Token.relabel_congr (h : r.line = r'.line) : Token.relabel r = Token.relabel r' := by
  funext t
  rw [relabel, relabel, h]

lemma Token.relabel_eq_id (h : r.line = id) : Token.relabel r = id :=
  Token.relabel_congr r .same h

/-! ### Expressions -/

namespace Expr

mutual

def relabel : Expr → Expr
  | literal l => literal l
  | group e => group e.relabel
  | unary op e => unary (op.relabel r) e.relabel
  | binary l op e => binary l.relabel (op.relabel r) e.relabel
  | logical l op e => logical l.relabel (op.relabel r) e.relabel
  | conditional c t e => conditional c.relabel t.relabel e.relabel
  | reference id name => reference (r.node id) (name.relabel r)
  | assign id name value => assign (r.node id) (name.relabel r) value.relabel
  | call callee paren arguments => call callee.relabel (paren.relabel r) (relabelEach arguments)
  | property object name => property object.relabel (name.relabel r)
  | setProperty object name value => setProperty object.relabel (name.relabel r) value.relabel
  | this id keyword => this (r.node id) (keyword.relabel r)

def relabelEach : List Expr → List Expr
  | [] => []
  | e :: es => e.relabel :: relabelEach es

end

@[simp] lemma relabelEach_eq_map (es : List Expr) : relabelEach r es = es.map (relabel r) := by
  induction es with
  | nil => rfl
  | cons e es ih => simp [relabelEach, ih]

variable {r r'}

mutual

/-- Only the numbers that occur in an expression matter. -/
lemma relabel_congr (hline : r.line = r'.line) :
    ∀ e : Expr, (∀ i ∈ e.ids, r.node i = r'.node i) → e.relabel r = e.relabel r'
  | literal _, _ => rfl
  | group e, h => congrArg group (relabel_congr hline e h)
  | unary op e, h => by
    rw [relabel, relabel, Token.relabel_congr r r' hline, relabel_congr hline e h]
  | binary l op e, h => by
    obtain ⟨hl, he⟩ := List.forall_mem_append.mp h
    rw [relabel, relabel, Token.relabel_congr r r' hline, relabel_congr hline l hl,
      relabel_congr hline e he]
  | logical l op e, h => by
    obtain ⟨hl, he⟩ := List.forall_mem_append.mp h
    rw [relabel, relabel, Token.relabel_congr r r' hline, relabel_congr hline l hl,
      relabel_congr hline e he]
  | conditional c t e, h => by
    obtain ⟨hc, hte⟩ := List.forall_mem_append.mp h
    obtain ⟨ht, he⟩ := List.forall_mem_append.mp hte
    rw [relabel, relabel, relabel_congr hline c hc, relabel_congr hline t ht,
      relabel_congr hline e he]
  | reference id name, h => by
    rw [relabel, relabel, Token.relabel_congr r r' hline, h id (List.mem_singleton_self _)]
  | assign id name value, h => by
    obtain ⟨hvalue, hid⟩ := List.forall_mem_append.mp h
    rw [relabel, relabel, Token.relabel_congr r r' hline, hid id (List.mem_singleton_self _),
      relabel_congr hline value hvalue]
  | call callee paren arguments, h => by
    obtain ⟨hcallee, harguments⟩ := List.forall_mem_append.mp h
    rw [relabel, relabel, Token.relabel_congr r r' hline, relabel_congr hline callee hcallee,
      relabelEach_congr hline arguments harguments]
  | property object name, h => by
    rw [relabel, relabel, Token.relabel_congr r r' hline, relabel_congr hline object h]
  | setProperty object name value, h => by
    obtain ⟨hobject, hvalue⟩ := List.forall_mem_append.mp h
    rw [relabel, relabel, Token.relabel_congr r r' hline, relabel_congr hline object hobject,
      relabel_congr hline value hvalue]
  | this id keyword, h => by
    rw [relabel, relabel, Token.relabel_congr r r' hline, h id (List.mem_singleton_self _)]

lemma relabelEach_congr (hline : r.line = r'.line) :
    ∀ es : List Expr, (∀ i ∈ idsOf es, r.node i = r'.node i) → relabelEach r es = relabelEach r' es
  | [], _ => rfl
  | e :: es, h => by
    obtain ⟨he, hes⟩ := List.forall_mem_append.mp h
    rw [relabelEach, relabelEach, relabel_congr hline e he, relabelEach_congr hline es hes]

end

mutual

@[simp] lemma relabel_same : ∀ e : Expr, e.relabel .same = e
  | literal _ => rfl
  | group e => congrArg group (relabel_same e)
  | unary op e => congrArg (unary op) (relabel_same e)
  | binary l op e => congrArg₂ (binary · op ·) (relabel_same l) (relabel_same e)
  | logical l op e => congrArg₂ (logical · op ·) (relabel_same l) (relabel_same e)
  | conditional c t e => by
    rw [relabel, relabel_same c, relabel_same t, relabel_same e]
  | reference _ _ => rfl
  | assign id name value => congrArg (assign id name) (relabel_same value)
  | call callee paren arguments =>
    congrArg₂ (call · paren ·) (relabel_same callee) (relabelEach_same arguments)
  | property object name => congrArg (property · name) (relabel_same object)
  | setProperty object name value =>
    congrArg₂ (setProperty · name ·) (relabel_same object) (relabel_same value)
  | this _ _ => rfl

lemma relabelEach_same : ∀ es : List Expr, relabelEach .same es = es
  | [] => rfl
  | e :: es => congrArg₂ List.cons (relabel_same e) (relabelEach_same es)

end

mutual

lemma relabel_relabel : ∀ e : Expr, (e.relabel r).relabel r' = e.relabel (r.andThen r')
  | literal _ => rfl
  | group e => congrArg group (relabel_relabel e)
  | unary op e => congrArg (unary _) (relabel_relabel e)
  | binary l op e => congrArg₂ (binary · _ ·) (relabel_relabel l) (relabel_relabel e)
  | logical l op e => congrArg₂ (logical · _ ·) (relabel_relabel l) (relabel_relabel e)
  | conditional c t e => by
    rw [relabel, relabel, relabel_relabel c, relabel_relabel t, relabel_relabel e, relabel]
  | reference _ _ => rfl
  | assign id name value => congrArg (assign _ _) (relabel_relabel value)
  | call callee paren arguments =>
    congrArg₂ (call · _ ·) (relabel_relabel callee) (relabelEach_relabelEach arguments)
  | property object name => congrArg (property · _) (relabel_relabel object)
  | setProperty object name value =>
    congrArg₂ (setProperty · _ ·) (relabel_relabel object) (relabel_relabel value)
  | this _ _ => rfl

lemma relabelEach_relabelEach : ∀ es : List Expr,
    relabelEach r' (relabelEach r es) = relabelEach (r.andThen r') es
  | [] => rfl
  | e :: es => congrArg₂ List.cons (relabel_relabel e) (relabelEach_relabelEach es)

end

end Expr

/-! ### Statements -/

namespace Stmt

mutual

def relabel : Stmt → Stmt
  | expression e => expression (e.relabel r)
  | print e => print (e.relabel r)
  | declare name initial => declare (name.relabel r) (initial.map (Expr.relabel r))
  | block body => block (relabelEach body)
  | branch c t none => branch (c.relabel r) t.relabel none
  | branch c t (some e) => branch (c.relabel r) t.relabel (some e.relabel)
  | loop c body => loop (c.relabel r) body.relabel
  | breakLoop keyword => breakLoop (keyword.relabel r)
  | function d => function (relabelDecl d)
  | returnFrom keyword value => returnFrom (keyword.relabel r) (value.map (Expr.relabel r))
  | classDecl name methods statics =>
    classDecl (name.relabel r) (relabelDecls methods) (relabelDecls statics)

def relabelEach : List Stmt → List Stmt
  | [] => []
  | s :: ss => s.relabel :: relabelEach ss

def relabelDecl : FunctionDecl → FunctionDecl
  | .mk name params body =>
    .mk (name.relabel r) (params.map (·.map (Token.relabel r))) (relabelEach body)

def relabelDecls : List FunctionDecl → List FunctionDecl
  | [] => []
  | d :: ds => relabelDecl d :: relabelDecls ds

end

end Stmt

/-- A declaration with other numbers and lines. -/
def FunctionDecl.relabel (d : FunctionDecl) : FunctionDecl := Stmt.relabelDecl r d

namespace Stmt

@[simp] lemma relabelEach_eq_map (ss : List Stmt) : relabelEach r ss = ss.map (relabel r) := by
  induction ss with
  | nil => rfl
  | cons s ss ih => simp [relabelEach, ih]

@[simp] lemma relabelDecls_eq_map (ds : List FunctionDecl) :
    relabelDecls r ds = ds.map (FunctionDecl.relabel r) := by
  induction ds with
  | nil => rfl
  | cons d ds ih => simp [relabelDecls, ih, FunctionDecl.relabel]

lemma relabel_branch (c : Expr) (t : Stmt) (e : Option Stmt) :
    (branch c t e).relabel r = branch (c.relabel r) (t.relabel r) (e.map (relabel r)) := by
  cases e <;> rfl

lemma relabel_block (body : List Stmt) :
    (block body).relabel r = block (body.map (relabel r)) :=
  congrArg block (relabelEach_eq_map r body)

lemma relabel_classDecl (name : Token) (methods statics : List FunctionDecl) :
    (classDecl name methods statics).relabel r = classDecl (name.relabel r)
      (methods.map (FunctionDecl.relabel r)) (statics.map (FunctionDecl.relabel r)) := by
  rw [relabel, relabelDecls_eq_map, relabelDecls_eq_map]

end Stmt

namespace FunctionDecl

@[simp] lemma name_relabel (d : FunctionDecl) : (d.relabel r).name = d.name.relabel r := by
  cases d
  rfl

@[simp] lemma params_relabel (d : FunctionDecl) :
    (d.relabel r).params = d.params.map (·.map (Token.relabel r)) := by
  cases d
  rfl

@[simp] lemma body_relabel (d : FunctionDecl) :
    (d.relabel r).body = d.body.map (Stmt.relabel r) := by
  cases d
  exact Stmt.relabelEach_eq_map ..

@[simp] lemma isGetter_relabel (d : FunctionDecl) : (d.relabel r).isGetter = d.isGetter := by
  rw [isGetter, params_relabel, Option.isNone_map, isGetter]

@[simp] lemma paramList_relabel (d : FunctionDecl) :
    (d.relabel r).paramList = d.paramList.map (Token.relabel r) := by
  rw [paramList, params_relabel, paramList]
  cases d.params <;> rfl

@[simp] lemma arity_relabel (d : FunctionDecl) : (d.relabel r).arity = d.arity := by
  rw [arity, paramList_relabel, List.length_map, arity]

end FunctionDecl

namespace Stmt

variable {r r'}

lemma optional_congr (hline : r.line = r'.line) {e : Option Expr}
    (h : ∀ i ∈ e.elim [] Expr.ids, r.node i = r'.node i) :
    e.map (Expr.relabel r) = e.map (Expr.relabel r') := by
  cases e with
  | none => rfl
  | some e => exact congrArg some (Expr.relabel_congr hline e h)

mutual

/-- Only the numbers that occur in a statement matter. -/
lemma relabel_congr (hline : r.line = r'.line) :
    ∀ s : Stmt, (∀ i ∈ s.ids, r.node i = r'.node i) → s.relabel r = s.relabel r'
  | expression e, h => congrArg expression (Expr.relabel_congr hline e h)
  | print e, h => congrArg print (Expr.relabel_congr hline e h)
  | declare name initial, h => by
    rw [relabel, relabel, Token.relabel_congr r r' hline, optional_congr hline h]
  | block body, h => congrArg block (relabelEach_congr hline body h)
  | branch c t none, h => by
    obtain ⟨hc, ht⟩ := List.forall_mem_append.mp h
    rw [relabel, relabel, Expr.relabel_congr hline c hc, relabel_congr hline t ht]
  | branch c t (some e), h => by
    obtain ⟨hc, hte⟩ := List.forall_mem_append.mp h
    obtain ⟨ht, he⟩ := List.forall_mem_append.mp hte
    rw [relabel, relabel, Expr.relabel_congr hline c hc, relabel_congr hline t ht,
      relabel_congr hline e he]
  | loop c body, h => by
    obtain ⟨hc, hbody⟩ := List.forall_mem_append.mp h
    rw [relabel, relabel, Expr.relabel_congr hline c hc, relabel_congr hline body hbody]
  | breakLoop keyword, _ => by
    rw [relabel, relabel, Token.relabel_congr r r' hline]
  | function d, h => congrArg function (relabelDecl_congr hline d h)
  | returnFrom keyword value, h => by
    rw [relabel, relabel, Token.relabel_congr r r' hline, optional_congr hline h]
  | classDecl name methods statics, h => by
    obtain ⟨hmethods, hstatics⟩ := List.forall_mem_append.mp h
    rw [relabel, relabel, Token.relabel_congr r r' hline, relabelDecls_congr hline methods hmethods,
      relabelDecls_congr hline statics hstatics]

lemma relabelEach_congr (hline : r.line = r'.line) :
    ∀ ss : List Stmt, (∀ i ∈ idsOf ss, r.node i = r'.node i) → relabelEach r ss = relabelEach r' ss
  | [], _ => rfl
  | s :: ss, h => by
    obtain ⟨hs, hss⟩ := List.forall_mem_append.mp h
    rw [relabelEach, relabelEach, relabel_congr hline s hs, relabelEach_congr hline ss hss]

lemma relabelDecl_congr (hline : r.line = r'.line) :
    ∀ d : FunctionDecl, (∀ i ∈ idsOfDecl d, r.node i = r'.node i) →
      relabelDecl r d = relabelDecl r' d
  | .mk name params body, h => by
    rw [relabelDecl, relabelDecl, Token.relabel_congr r r' hline, relabelEach_congr hline body h]

lemma relabelDecls_congr (hline : r.line = r'.line) :
    ∀ ds : List FunctionDecl, (∀ i ∈ idsOfDecls ds, r.node i = r'.node i) →
      relabelDecls r ds = relabelDecls r' ds
  | [], _ => rfl
  | d :: ds, h => by
    obtain ⟨hd, hds⟩ := List.forall_mem_append.mp h
    rw [relabelDecls, relabelDecls, relabelDecl_congr hline d hd, relabelDecls_congr hline ds hds]

end

lemma optional_same (e : Option Expr) : e.map (Expr.relabel .same) = e := by
  cases e with
  | none => rfl
  | some e => exact congrArg some (Expr.relabel_same e)

mutual

@[simp] lemma relabel_same : ∀ s : Stmt, s.relabel .same = s
  | expression e => congrArg expression (Expr.relabel_same e)
  | print e => congrArg print (Expr.relabel_same e)
  | declare name initial => congrArg (declare name) (optional_same initial)
  | block body => congrArg block (relabelEach_same body)
  | branch c t none => congrArg₂ (branch · · none) (Expr.relabel_same c) (relabel_same t)
  | branch c t (some e) => by
    rw [relabel, Expr.relabel_same c, relabel_same t, relabel_same e]
  | loop c body => congrArg₂ loop (Expr.relabel_same c) (relabel_same body)
  | breakLoop _ => rfl
  | function d => congrArg function (relabelDecl_same d)
  | returnFrom keyword value => congrArg (returnFrom keyword) (optional_same value)
  | classDecl name methods statics =>
    congrArg₂ (classDecl name) (relabelDecls_same methods) (relabelDecls_same statics)

lemma relabelEach_same : ∀ ss : List Stmt, relabelEach .same ss = ss
  | [] => rfl
  | s :: ss => congrArg₂ List.cons (relabel_same s) (relabelEach_same ss)

lemma relabelDecl_same : ∀ d : FunctionDecl, relabelDecl .same d = d
  | .mk name params body => by
    have hparams : params.map (·.map (Token.relabel .same)) = params := by
      cases params with
      | none => rfl
      | some params => exact congrArg some (List.map_id params)
    rw [relabelDecl, hparams, relabelEach_same body]
    rfl

lemma relabelDecls_same : ∀ ds : List FunctionDecl, relabelDecls .same ds = ds
  | [] => rfl
  | d :: ds => congrArg₂ List.cons (relabelDecl_same d) (relabelDecls_same ds)

end

lemma optional_relabel (e : Option Expr) :
    (e.map (Expr.relabel r)).map (Expr.relabel r') = e.map (Expr.relabel (r.andThen r')) := by
  cases e with
  | none => rfl
  | some e => exact congrArg some (Expr.relabel_relabel e)

mutual

lemma relabel_relabel : ∀ s : Stmt, (s.relabel r).relabel r' = s.relabel (r.andThen r')
  | expression e => congrArg expression (Expr.relabel_relabel e)
  | print e => congrArg print (Expr.relabel_relabel e)
  | declare name initial => congrArg (declare _) (optional_relabel initial)
  | block body => congrArg block (relabelEach_relabelEach body)
  | branch c t none => congrArg₂ (branch · · none) (Expr.relabel_relabel c) (relabel_relabel t)
  | branch c t (some e) => by
    rw [relabel, relabel, Expr.relabel_relabel c, relabel_relabel t, relabel_relabel e, relabel]
  | loop c body => congrArg₂ loop (Expr.relabel_relabel c) (relabel_relabel body)
  | breakLoop _ => rfl
  | function d => congrArg function (relabelDecl_relabelDecl d)
  | returnFrom keyword value => congrArg (returnFrom _) (optional_relabel value)
  | classDecl name methods statics => congrArg₂ (classDecl _)
    (relabelDecls_relabelDecls methods) (relabelDecls_relabelDecls statics)

lemma relabelEach_relabelEach : ∀ ss : List Stmt,
    relabelEach r' (relabelEach r ss) = relabelEach (r.andThen r') ss
  | [] => rfl
  | s :: ss => congrArg₂ List.cons (relabel_relabel s) (relabelEach_relabelEach ss)

lemma relabelDecl_relabelDecl : ∀ d : FunctionDecl,
    relabelDecl r' (relabelDecl r d) = relabelDecl (r.andThen r') d
  | .mk name params body => by
    rw [relabelDecl, relabelDecl, relabelEach_relabelEach body, Option.map_map, relabelDecl]
    congr 1
    cases params with
    | none => rfl
    | some params => exact congrArg some (List.map_map ..)

lemma relabelDecls_relabelDecls : ∀ ds : List FunctionDecl,
    relabelDecls r' (relabelDecls r ds) = relabelDecls (r.andThen r') ds
  | [] => rfl
  | d :: ds => congrArg₂ List.cons (relabelDecl_relabelDecl d) (relabelDecls_relabelDecls ds)

end

end Stmt

/-! ### Inputs and complaints -/

namespace Grammar

def Input.relabel : Input → Input
  | .expression e => .expression (e.relabel r)
  | .statements body => .statements (body.map (Stmt.relabel r))

end Grammar

def Complaint.relabel : Complaint → Complaint
  | lexical line f => lexical (r.line line) f
  | grammar line place f => grammar (r.line line) place f
  | scope line place f => scope (r.line line) place f

lemma Complaint.relabel_eq_id (h : r.line = id) : Complaint.relabel r = id := by
  funext c
  cases c <;> simp [relabel, h]

end Lox
