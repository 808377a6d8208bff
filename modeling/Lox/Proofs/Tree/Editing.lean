import Lox.Proofs.Tree.Relabeling

/-!
Trees with other tokens.

Of a token the grammar looks at the kind only. An edit gives nodes other numbers, and puts tokens of
the same kinds in place of the tokens; relabelings are such edits.
-/

namespace Lox

/-- Other numbers for nodes, and other tokens of the same kinds. -/
structure Edit where
  node : NodeId → NodeId
  token : Token → Token
  kind_token : ∀ t, (token t).kind = t.kind

attribute [simp] Edit.kind_token

/-- The token without its text. -/
def Token.blank (t : Token) : Token := { t with lexeme := "" }

/-- The texts of tokens are forgotten. -/
def Edit.blank : Edit := ⟨id, Token.blank, fun _ => rfl⟩

/-- Other numbers and lines. -/
def Relabeling.edit (r : Relabeling) : Edit := ⟨r.node, Token.relabel r, Token.kind_relabel r⟩

variable (k : Edit) (r : Relabeling)

/-! ### Expressions -/

namespace Expr

mutual

def edit : Expr → Expr
  | literal l => literal l
  | group e => group e.edit
  | unary op e => unary (k.token op) e.edit
  | binary l op e => binary l.edit (k.token op) e.edit
  | logical l op e => logical l.edit (k.token op) e.edit
  | conditional c t e => conditional c.edit t.edit e.edit
  | reference id name => reference (k.node id) (k.token name)
  | assign id name value => assign (k.node id) (k.token name) value.edit
  | call callee paren arguments => call callee.edit (k.token paren) (editEach arguments)
  | property object name => property object.edit (k.token name)
  | setProperty object name value => setProperty object.edit (k.token name) value.edit
  | this id keyword => this (k.node id) (k.token keyword)

def editEach : List Expr → List Expr
  | [] => []
  | e :: es => e.edit :: editEach es

end

@[simp] lemma editEach_eq_map (es : List Expr) : editEach k es = es.map (edit k) := by
  induction es with
  | nil => rfl
  | cons e es ih => rw [editEach, ih, List.map_cons]

mutual

lemma edit_relabeling : ∀ e : Expr, e.edit r.edit = e.relabel r
  | literal _ => rfl
  | group e => congrArg group (edit_relabeling e)
  | unary op e => congrArg (unary _) (edit_relabeling e)
  | binary l op e => congrArg₂ (binary · _ ·) (edit_relabeling l) (edit_relabeling e)
  | logical l op e => congrArg₂ (logical · _ ·) (edit_relabeling l) (edit_relabeling e)
  | conditional c t e => by
    rw [edit, edit_relabeling c, edit_relabeling t, edit_relabeling e, relabel]
  | reference _ _ => rfl
  | assign id name value => congrArg (assign _ _) (edit_relabeling value)
  | call callee paren arguments =>
    congrArg₂ (call · _ ·) (edit_relabeling callee) (editEach_relabeling arguments)
  | property object name => congrArg (property · _) (edit_relabeling object)
  | setProperty object name value =>
    congrArg₂ (setProperty · _ ·) (edit_relabeling object) (edit_relabeling value)
  | this _ _ => rfl

lemma editEach_relabeling : ∀ es : List Expr, editEach r.edit es = relabelEach r es
  | [] => rfl
  | e :: es => congrArg₂ List.cons (edit_relabeling e) (editEach_relabeling es)

end

end Expr

/-! ### Statements -/

namespace Stmt

mutual

def edit : Stmt → Stmt
  | expression e => expression (e.edit k)
  | print e => print (e.edit k)
  | declare name initial => declare (k.token name) (initial.map (Expr.edit k))
  | block body => block (editEach body)
  | branch c t none => branch (c.edit k) t.edit none
  | branch c t (some e) => branch (c.edit k) t.edit (some e.edit)
  | loop c body => loop (c.edit k) body.edit
  | breakLoop keyword => breakLoop (k.token keyword)
  | function d => function (editDecl d)
  | returnFrom keyword value => returnFrom (k.token keyword) (value.map (Expr.edit k))
  | classDecl name methods statics =>
    classDecl (k.token name) (editDecls methods) (editDecls statics)

def editEach : List Stmt → List Stmt
  | [] => []
  | s :: ss => s.edit :: editEach ss

def editDecl : FunctionDecl → FunctionDecl
  | .mk name params body =>
    .mk (k.token name) (params.map (·.map k.token)) (editEach body)

def editDecls : List FunctionDecl → List FunctionDecl
  | [] => []
  | d :: ds => editDecl d :: editDecls ds

end

end Stmt

/-- A declaration with other numbers and tokens. -/
def FunctionDecl.edit (d : FunctionDecl) : FunctionDecl := Stmt.editDecl k d

namespace Stmt

@[simp] lemma editEach_eq_map (ss : List Stmt) : editEach k ss = ss.map (edit k) := by
  induction ss with
  | nil => rfl
  | cons s ss ih => rw [editEach, ih, List.map_cons]

@[simp] lemma editDecls_eq_map (ds : List FunctionDecl) :
    editDecls k ds = ds.map (FunctionDecl.edit k) := by
  induction ds with
  | nil => rfl
  | cons d ds ih => rw [editDecls, ih, List.map_cons, FunctionDecl.edit]

lemma edit_branch (c : Expr) (t : Stmt) (e : Option Stmt) :
    (branch c t e).edit k = branch (c.edit k) (t.edit k) (e.map (edit k)) := by
  cases e <;> rfl

lemma edit_block (body : List Stmt) : (block body).edit k = block (body.map (edit k)) :=
  congrArg block (editEach_eq_map k body)

lemma edit_classDecl (name : Token) (methods statics : List FunctionDecl) :
    (classDecl name methods statics).edit k = classDecl (k.token name)
      (methods.map (FunctionDecl.edit k)) (statics.map (FunctionDecl.edit k)) := by
  rw [edit, editDecls_eq_map, editDecls_eq_map]

lemma optional_edit_relabeling (e : Option Expr) :
    e.map (Expr.edit r.edit) = e.map (Expr.relabel r) :=
  Option.map_congr fun e _ => e.edit_relabeling r

mutual

lemma edit_relabeling : ∀ s : Stmt, s.edit r.edit = s.relabel r
  | expression e => congrArg expression (e.edit_relabeling r)
  | print e => congrArg print (e.edit_relabeling r)
  | declare name initial => congrArg (declare _) (optional_edit_relabeling r initial)
  | block body => congrArg block (editEach_relabeling body)
  | branch c t none => congrArg₂ (branch · · none) (c.edit_relabeling r) (edit_relabeling t)
  | branch c t (some e) => by
    rw [edit, c.edit_relabeling, edit_relabeling t, edit_relabeling e, relabel]
  | loop c body => congrArg₂ loop (c.edit_relabeling r) (edit_relabeling body)
  | breakLoop _ => rfl
  | function d => congrArg function (editDecl_relabeling d)
  | returnFrom keyword value => congrArg (returnFrom _) (optional_edit_relabeling r value)
  | classDecl name methods statics =>
    congrArg₂ (classDecl _) (editDecls_relabeling methods) (editDecls_relabeling statics)

lemma editEach_relabeling : ∀ ss : List Stmt, editEach r.edit ss = relabelEach r ss
  | [] => rfl
  | s :: ss => congrArg₂ List.cons (edit_relabeling s) (editEach_relabeling ss)

lemma editDecl_relabeling : ∀ d : FunctionDecl, editDecl r.edit d = relabelDecl r d
  | .mk _ _ body => congrArg (FunctionDecl.mk _ _) (editEach_relabeling body)

lemma editDecls_relabeling : ∀ ds : List FunctionDecl, editDecls r.edit ds = relabelDecls r ds
  | [] => rfl
  | d :: ds => congrArg₂ List.cons (editDecl_relabeling d) (editDecls_relabeling ds)

end

end Stmt

/-! ### Inputs -/

namespace Grammar

def Input.edit : Input → Input
  | .expression e => .expression (e.edit k)
  | .statements body => .statements (body.map (Stmt.edit k))

lemma Input.edit_relabeling (input : Input) : input.edit r.edit = input.relabel r := by
  cases input with
  | expression e => exact congrArg Input.expression (e.edit_relabeling r)
  | statements body =>
    exact congrArg Input.statements (List.map_congr_left fun s _ => s.edit_relabeling r)

end Grammar

end Lox
