import Mathlib.Logic.Equiv.Basic
import Lox.Proofs.Scope.Sites

/-!
Trees in which local variables have another name.

Some scopes are marked: there a variable or a parameter is declared whose name is replaced, and with
it every name that refers to it, that is, whose recorded distance leads to a marked scope. All other
occurrences of the name mean something else, and stay.
-/

namespace Lox

/-- Another name for local variables. Neither name is a reserved word. -/
structure Renaming where
  old : String
  new : String
  /-- Where the references of the tree lead. -/
  known : Scope.Distances
  old_name : Keyword.ofWord? old = none
  new_name : Keyword.ofWord? new = none

/-- None of the scopes is marked. -/
def Unmarked (marks : List Bool) : Prop := ∀ m ∈ marks, m = false

lemma Unmarked.cons {marks : List Bool} (h : Unmarked marks) : Unmarked (false :: marks) :=
  List.forall_mem_cons.mpr ⟨rfl, h⟩

namespace Renaming

variable (r : Renaming)

/-- The name by which a variable goes in a scope. In a marked scope the two names are exchanged, so
that no variable is lost; where the new name does not occur, the old one is replaced. -/
def key (mark : Bool) (name : String) : String :=
  if mark then Equiv.swap r.old r.new name else name

def token (mark : Bool) (t : Token) : Token := { t with lexeme := r.key mark t.lexeme }

/-- Whether a reference leads to a marked scope. The marks are those of the scopes around it,
innermost first. -/
def leads (marks : List Bool) (id : NodeId) : Bool :=
  match r.known[id]? with
  | some d => marks.getD d false
  | none => false

/-- A name that is declared in the innermost scope. -/
def declared (marks : List Bool) (name : Token) : Token := r.token (marks.getD 0 false) name

/-- A name that refers to a variable. -/
def referred (marks : List Bool) (id : NodeId) (name : Token) : Token :=
  r.token (r.leads marks id) name

variable {r} {mark : Bool} {marks : List Bool} {name : String}

@[simp] lemma key_false : r.key false name = name := rfl

lemma key_injective (r : Renaming) (mark : Bool) : Function.Injective (r.key mark) := by
  cases mark with
  | false => exact Function.injective_id
  | true => exact (Equiv.swap r.old r.new).injective

lemma key_of_ne (hold : name ≠ r.old) (hnew : name ≠ r.new) : r.key mark name = name := by
  cases mark with
  | false => rfl
  | true => exact Equiv.swap_apply_of_ne_of_ne hold hnew

lemma key_this : r.key mark "this" = "this" := by
  have hthis : Keyword.ofWord? "this" ≠ none := by decide
  refine key_of_ne (fun h => hthis ?_) fun h => hthis ?_
  · rw [h, r.old_name]
  · rw [h, r.new_name]

@[simp] lemma token_false (t : Token) : r.token false t = t := rfl

lemma leads_of_none {id : NodeId} (h : r.known[id]? = none) : r.leads marks id = false := by
  rw [leads, h]

lemma leads_of_some {id : NodeId} {d : ℕ} (h : r.known[id]? = some d) :
    r.leads marks id = marks.getD d false := by
  rw [leads, h]

lemma leads_of_unmarked (h : Unmarked marks) (id : NodeId) : r.leads marks id = false := by
  unfold leads
  split
  · rename_i d _
    rw [List.getD_eq_getElem?_getD]
    cases hd : marks[d]? with
    | none => rfl
    | some m => exact h m (List.mem_of_getElem? hd)
  · rfl

lemma referred_of_unmarked (h : Unmarked marks) (id : NodeId) (t : Token) :
    r.referred marks id t = t := by
  rw [referred, leads_of_unmarked h, token_false]

lemma declared_of_unmarked (h : Unmarked marks) (t : Token) : r.declared marks t = t := by
  have hmark : marks.getD 0 false = false := by
    cases marks with
    | nil => rfl
    | cons m marks => exact h m (List.mem_cons_self ..)
  rw [declared, hmark, token_false]

end Renaming

namespace Expr

variable (r : Renaming) (marks : List Bool)

mutual

/-- An expression in which the names that lead to marked scopes are replaced. -/
def rename : Expr → Expr
  | literal l => literal l
  | group e => group e.rename
  | unary op e => unary op e.rename
  | binary l op e => binary l.rename op e.rename
  | logical l op e => logical l.rename op e.rename
  | conditional c t e => conditional c.rename t.rename e.rename
  | reference id name => reference id (r.referred marks id name)
  | assign id name value => assign id (r.referred marks id name) value.rename
  | call callee paren arguments => call callee.rename paren (renameEach arguments)
  | property object name => property object.rename name
  | setProperty object name value => setProperty object.rename name value.rename
  | this id keyword => this id (r.referred marks id keyword)

def renameEach : List Expr → List Expr
  | [] => []
  | e :: es => e.rename :: renameEach es

end

@[simp] lemma renameEach_eq_map (es : List Expr) :
    renameEach r marks es = es.map (rename r marks) := by
  induction es with
  | nil => rfl
  | cons e es ih => rw [renameEach, ih, List.map_cons]

variable {r marks}

mutual

lemma rename_of_unmarked (h : Unmarked marks) : ∀ e : Expr, e.rename r marks = e
  | literal _ => rfl
  | group e => congrArg group (rename_of_unmarked h e)
  | unary op e => congrArg (unary op) (rename_of_unmarked h e)
  | binary l op e => congrArg₂ (binary · op ·) (rename_of_unmarked h l) (rename_of_unmarked h e)
  | logical l op e => congrArg₂ (logical · op ·) (rename_of_unmarked h l) (rename_of_unmarked h e)
  | conditional c t e => by
    rw [rename, rename_of_unmarked h c, rename_of_unmarked h t, rename_of_unmarked h e]
  | reference id name => congrArg (reference id) (Renaming.referred_of_unmarked h id name)
  | assign id name value =>
    congrArg₂ (assign id) (Renaming.referred_of_unmarked h id name) (rename_of_unmarked h value)
  | call callee paren arguments =>
    congrArg₂ (call · paren ·) (rename_of_unmarked h callee) (renameEach_of_unmarked h arguments)
  | property object name => congrArg (property · name) (rename_of_unmarked h object)
  | setProperty object name value =>
    congrArg₂ (setProperty · name ·) (rename_of_unmarked h object) (rename_of_unmarked h value)
  | this id keyword => congrArg (this id) (Renaming.referred_of_unmarked h id keyword)

lemma renameEach_of_unmarked (h : Unmarked marks) :
    ∀ es : List Expr, renameEach r marks es = es
  | [] => rfl
  | e :: es => congrArg₂ List.cons (rename_of_unmarked h e) (renameEach_of_unmarked h es)

end

end Expr

/-! ### Trees without a name -/

/-- The name stands nowhere in the expression. -/
def Expr.Avoids (name : String) (e : Expr) : Prop := ∀ t, .token t ∈ e.yield → t.lexeme ≠ name

lemma Expr.Avoids.part {name : String} {e p : Expr} (h : e.Avoids name) (hp : p ∈ e.parts) :
    p.Avoids name :=
  fun t ht => h t (Grammar.mem_yield_of_mem_parts hp ht)

namespace Stmt

/-- The names that a statement itself gives, to parameters too. -/
def given : Stmt → List Token
  | declare name _ => [name]
  | function d => d.name :: d.paramList
  | classDecl name methods statics => name :: (methods ++ statics).flatMap FunctionDecl.paramList
  | _ => []

/-- No variable, function or class in the statement has the name, and nothing there refers to it. -/
inductive Avoids (name : String) : Stmt → Prop
  | intro {d : Stmt} : (∀ t ∈ d.given, t.lexeme ≠ name) → (∀ e ∈ d.exprs, e.Avoids name) →
      (∀ b ∈ d.branches, Avoids name b) → (∀ b ∈ d.inner, Avoids name b) → Avoids name d

namespace Avoids

variable {name : String} {d : Stmt}

lemma given (h : d.Avoids name) : ∀ t ∈ d.given, t.lexeme ≠ name := by
  obtain ⟨h, -, -, -⟩ := h
  exact h

lemma exprs (h : d.Avoids name) : ∀ e ∈ d.exprs, e.Avoids name := by
  obtain ⟨-, h, -, -⟩ := h
  exact h

lemma branches (h : d.Avoids name) : ∀ b ∈ d.branches, b.Avoids name := by
  obtain ⟨-, -, h, -⟩ := h
  exact h

lemma inner (h : d.Avoids name) : ∀ b ∈ d.inner, b.Avoids name := by
  obtain ⟨-, -, -, h⟩ := h
  exact h

end Avoids

end Stmt

/-- The name stands neither among the parameters of a function nor in its body. -/
structure FunctionDecl.Avoids (name : String) (d : FunctionDecl) : Prop where
  params : ∀ p ∈ d.paramList, p.lexeme ≠ name
  body : ∀ b ∈ d.body, b.Avoids name

namespace Stmt.Avoids

variable {name : String}

lemma function {d : FunctionDecl} (h : (Stmt.function d).Avoids name) : d.Avoids name :=
  ⟨fun p hp => h.given p (List.mem_cons_of_mem _ hp), h.inner⟩

lemma member {t : Token} {ms ss : List FunctionDecl} (h : (Stmt.classDecl t ms ss).Avoids name)
    {d : FunctionDecl} (hd : d ∈ ms ++ ss) : d.Avoids name :=
  ⟨fun p hp => h.given p (List.mem_cons_of_mem _ (List.mem_flatMap.mpr ⟨d, hd, hp⟩)),
    fun b hb => h.inner b (List.mem_flatMap.mpr ⟨d, hd, hb⟩)⟩

end Stmt.Avoids

/-- The name stands nowhere in the node. -/
def Scope.Node.Avoids (name : String) : Scope.Node → Prop
  | expr e => e.Avoids name
  | exprs es => ∀ e ∈ es, e.Avoids name
  | stmt d => d.Avoids name
  | stmts body => ∀ d ∈ body, d.Avoids name
  | function _ d => d.Avoids name
  | methods ds => ∀ d ∈ ds, d.Avoids name
  | statics ds => ∀ d ∈ ds, d.Avoids name

/-! ### Other names -/

/-- The names that are declared as variables in the scope in which statements stand. -/
def variablesIn (body : List Stmt) : List String :=
  (body.filterMap (·.newVariable?)).map (·.lexeme)

namespace Scope

/-- The second node is the first one with other names for some variables: in each scope that is
opened inside, the old name may be replaced if a variable or a parameter there has it. With
`strict`, the name of a function or class is not one of the two names in a marked scope. -/
inductive Node.Renamed (strict : Bool) (r : Renaming) : List Bool → Node → Node → Prop
  | expr {marks e} : Renamed strict r marks (.expr e) (.expr (e.rename r marks))
  -- statements
  | expression {marks e} :
      Renamed strict r marks (.stmt (.expression e)) (.stmt (.expression (e.rename r marks)))
  | print {marks e} : Renamed strict r marks (.stmt (.print e)) (.stmt (.print (e.rename r marks)))
  | declare {marks name initial} : Renamed strict r marks (.stmt (.declare name initial))
      (.stmt (.declare (r.declared marks name) (initial.map (Expr.rename r marks))))
  | block {marks body body'} {mark : Bool} : (mark → r.old ∈ variablesIn body) →
      Renamed strict r (mark :: marks) (.stmts body) (.stmts body') →
      Renamed strict r marks (.stmt (.block body)) (.stmt (.block body'))
  | ifThen {marks c t t'} : Renamed strict r marks (.stmt t) (.stmt t') →
      Renamed strict r marks (.stmt (.branch c t none)) (.stmt (.branch (c.rename r marks) t' none))
  | ifElse {marks c t t' e e'} : Renamed strict r marks (.stmt t) (.stmt t') →
      Renamed strict r marks (.stmt e) (.stmt e') →
      Renamed strict r marks (.stmt (.branch c t (some e)))
        (.stmt (.branch (c.rename r marks) t' (some e')))
  | loop {marks c body body'} : Renamed strict r marks (.stmt body) (.stmt body') →
      Renamed strict r marks (.stmt (.loop c body)) (.stmt (.loop (c.rename r marks) body'))
  | breakLoop {marks keyword} :
      Renamed strict r marks (.stmt (.breakLoop keyword)) (.stmt (.breakLoop keyword))
  | function {marks d d'} : (strict → r.declared marks d.name = d.name) →
      Renamed strict r marks (.function .function d) (.function .function d') →
      Renamed strict r marks (.stmt (.function d)) (.stmt (.function d'))
  | returnFrom {marks keyword value} : Renamed strict r marks (.stmt (.returnFrom keyword value))
      (.stmt (.returnFrom keyword (value.map (Expr.rename r marks))))
  | classDecl {marks name ms ms' ss ss'} : (strict → r.declared marks name = name) →
      Renamed strict r (false :: marks) (.methods ms) (.methods ms') →
      Renamed strict r (false :: marks) (.statics ss) (.statics ss') →
      Renamed strict r marks (.stmt (.classDecl name ms ss)) (.stmt (.classDecl name ms' ss'))
  -- several statements
  | nil {marks} : Renamed strict r marks (.stmts []) (.stmts [])
  | cons {marks d d' ds ds'} : Renamed strict r marks (.stmt d) (.stmt d') →
      Renamed strict r marks (.stmts ds) (.stmts ds') →
      Renamed strict r marks (.stmts (d :: ds)) (.stmts (d' :: ds'))
  -- functions
  | body {marks sort name params code code'} {mark : Bool} :
      (mark → r.old ∈ (params.getD []).map (·.lexeme) ++ variablesIn code) →
      Renamed strict r (mark :: marks) (.stmts code) (.stmts code') →
      Renamed strict r marks (.function sort (.mk name params code))
        (.function sort (.mk name (params.map (·.map (r.token mark))) code'))
  | noMethods {marks} : Renamed strict r marks (.methods []) (.methods [])
  | method {marks d d' ds ds'} :
      Renamed strict r marks (.function (Survey.methodBody d) d)
        (.function (Survey.methodBody d) d') →
      Renamed strict r marks (.methods ds) (.methods ds') →
      Renamed strict r marks (.methods (d :: ds)) (.methods (d' :: ds'))
  | noStatics {marks} : Renamed strict r marks (.statics []) (.statics [])
  | static {marks d d' ds ds'} :
      Renamed strict r marks (.function .method d) (.function .method d') →
      Renamed strict r marks (.statics ds) (.statics ds') →
      Renamed strict r marks (.statics (d :: ds)) (.statics (d' :: ds'))

namespace Node.Renamed

variable {strict : Bool} {r : Renaming}

/-! ### Nothing is replaced -/

mutual

theorem stmt_refl {marks : List Bool} (h : Unmarked marks) :
    ∀ d : Stmt, Node.Renamed strict r marks (.stmt d) (.stmt d)
  | .expression e => by
    have he := @expression strict r marks e
    rwa [Expr.rename_of_unmarked h] at he
  | .print e => by
    have he := @print strict r marks e
    rwa [Expr.rename_of_unmarked h] at he
  | .declare name initial => by
    have hd := @declare strict r marks name initial
    have hinitial : initial.map (Expr.rename r marks) = initial := by
      rw [funext (Expr.rename_of_unmarked h), Option.map_id']
    rwa [Renaming.declared_of_unmarked h, hinitial] at hd
  | .block code =>
    have hcode := stmts_refl h.cons code
    .block (fun hmark => absurd hmark Bool.false_ne_true) hcode
  | .branch c t none => by
    have ht := ifThen (c := c) (stmt_refl h t)
    rwa [Expr.rename_of_unmarked h] at ht
  | .branch c t (some e) => by
    have ht := ifElse (c := c) (stmt_refl h t) (stmt_refl h e)
    rwa [Expr.rename_of_unmarked h] at ht
  | .loop c code => by
    have hcode := loop (c := c) (stmt_refl h code)
    rwa [Expr.rename_of_unmarked h] at hcode
  | .breakLoop _ => .breakLoop
  | .function d =>
    .function (fun _ => Renaming.declared_of_unmarked h d.name) (function_refl h .function d)
  | .returnFrom keyword value => by
    have hv := @returnFrom strict r marks keyword value
    have hvalue : value.map (Expr.rename r marks) = value := by
      rw [funext (Expr.rename_of_unmarked h), Option.map_id']
    rwa [hvalue] at hv
  | .classDecl name ms ss =>
    .classDecl (fun _ => Renaming.declared_of_unmarked h name) (methods_refl h.cons ms)
      (statics_refl h.cons ss)

theorem stmts_refl {marks : List Bool} (h : Unmarked marks) :
    ∀ code : List Stmt, Node.Renamed strict r marks (.stmts code) (.stmts code)
  | [] => .nil
  | d :: ds => .cons (stmt_refl h d) (stmts_refl h ds)

theorem function_refl {marks : List Bool} (h : Unmarked marks) (sort : Body) :
    ∀ d : FunctionDecl, Node.Renamed strict r marks (.function sort d) (.function sort d)
  | .mk name params code => by
    have hcode := stmts_refl h.cons code
    have hbody := @body strict r marks sort name params code code false
      (fun hmark => absurd hmark Bool.false_ne_true) hcode
    have htoken : r.token false = id := funext r.token_false
    rwa [htoken, List.map_id_fun, Option.map_id_fun] at hbody

theorem methods_refl {marks : List Bool} (h : Unmarked marks) :
    ∀ ds : List FunctionDecl, Node.Renamed strict r marks (.methods ds) (.methods ds)
  | [] => .noMethods
  | d :: ds => .method (function_refl h _ d) (methods_refl h ds)

theorem statics_refl {marks : List Bool} (h : Unmarked marks) :
    ∀ ds : List FunctionDecl, Node.Renamed strict r marks (.statics ds) (.statics ds)
  | [] => .noStatics
  | d :: ds => .static (function_refl h _ d) (statics_refl h ds)

end

end Node.Renamed

/-! ### Names that are declared once -/

/-- Where a survey without complaints comes to an orderly node. -/
structure Tidy (n : Node) (ctx : Context) (s : Survey) : Prop where
  orderly : n.Orderly
  fits : n.Fits s.shape
  clean : (n.survey ctx s).Clean

namespace Tidy

variable {n m : Node} {ctx ctx' : Context} {s s' : Survey} {xs : List Region}

lemma inside (h : Tidy n ctx s) (hin : Inside n ctx s xs m ctx' s') : Tidy m ctx' s' := by
  obtain ⟨ids, hleads⟩ := hin.leads
  have hclean := (hleads.clean h.clean).of_suffix (complaints_closing xs _)
  refine ⟨hin.orderly h.orderly, ?_, hclean⟩
  rw [hin.shape_eq h.orderly h.fits hclean]
  exact hin.fits h.orderly h.fits

/-- What the innermost scope has no name of is what a statement may declare there. -/
lemma new {d : Stmt} {t : Token} (h : Tidy (.stmt d) ctx s) (ht : d.declared? = some t) :
    ∀ l ∈ s.shape.head?, l t.lexeme = none := by
  have hdeclare : (s.declare t).Clean := by
    cases d with
    | declare name initial =>
      obtain rfl : name = t := Option.some.inj ht
      cases initial with
      | none => exact (@Survey.leads_define [] _ name).clean h.clean
      | some e => exact (Survey.leads_expr ctx e _).clean (h.inside .initial).clean
    | function d =>
      obtain rfl : d.name = t := Option.some.inj ht
      have hname := (Survey.leads_function ctx .function d _).clean (h.inside .function).clean
      exact (@Survey.leads_define [] _ d.name).clean hname
    | classDecl name ms ss =>
      obtain rfl : name = t := Option.some.inj ht
      have hname := ((Survey.leads_methodList _ ms _).clean (h.inside .methods).clean).of_openLayer
      exact (@Survey.leads_define [] _ name).clean hname
    | _ => cases ht
  exact (Survey.shape_declare s t hdeclare).2

/-- The names that statements declare are different, and new in the scope. -/
lemma nodup_declaredIn {body : List Stmt} (h : Tidy (.stmts body) ctx s) {l : Standing} {S : Shape}
    (hs : s.shape = l :: S) :
    (declaredIn body).Nodup ∧ ∀ name ∈ declaredIn body, l name = none := by
  induction body generalizing s l with
  | nil => exact ⟨List.nodup_nil, List.forall_mem_nil _⟩
  | cons d ds ih =>
    have hd := h.inside .firstStmt
    have hds := h.inside .laterStmts
    have hshape : (Survey.stmt ctx d s).shape = s.shape.after d :=
      Survey.shape_stmt ctx d hd.orderly s hd.fits hd.clean
    rw [hs, Shape.after] at hshape
    cases ht : d.declared? with
    | none =>
      rw [ht] at hshape
      have hsame : declaredIn (d :: ds) = declaredIn ds := by simp [declaredIn, ht]
      rw [hsame]
      exact ih hds hshape
    | some t =>
      rw [ht] at hshape
      obtain ⟨hnodup, hnew⟩ := ih hds hshape
      have hfirst : l t.lexeme = none := hd.new ht l (by rw [hs]; rfl)
      have hcons : declaredIn (d :: ds) = t.lexeme :: declaredIn ds := by simp [declaredIn, ht]
      -- the name is known to the statements after the one that declares it
      have hne : ∀ name ∈ declaredIn ds, name ≠ t.lexeme := by
        rintro name hname rfl
        simpa using hnew _ hname
      rw [hcons]
      refine ⟨List.nodup_cons.mpr ⟨fun hmem => hne _ hmem rfl, hnodup⟩, ?_⟩
      refine List.forall_mem_cons.mpr ⟨hfirst, fun name hname => ?_⟩
      have hlater := hnew name hname
      rwa [Function.update_of_ne (hne name hname)] at hlater

end Tidy

/-- Whatever is declared by the name directly in a node is a variable. -/
def Node.Spares (name : String) : Node → Prop
  | stmt d => ∀ t ∈ d.declared?, t.lexeme = name → d.newVariable? = some t
  | stmts body => ∀ d ∈ body, ∀ t ∈ d.declared?, t.lexeme = name → d.newVariable? = some t
  | _ => True

lemma mem_named {f : Stmt → Option Token} {name : String} {body : List Stmt} :
    name ∈ (body.filterMap f).map (·.lexeme) ↔ ∃ d ∈ body, ∃ t ∈ f d, t.lexeme = name := by
  simp only [List.mem_map, List.mem_filterMap]
  constructor
  · rintro ⟨t, ⟨d, hd, ht⟩, rfl⟩
    exact ⟨d, hd, t, ht, rfl⟩
  · rintro ⟨d, hd, t, ht, rfl⟩
    exact ⟨t, ⟨d, hd, ht⟩, rfl⟩

lemma mem_declaredIn {name : String} {body : List Stmt} :
    name ∈ declaredIn body ↔ ∃ d ∈ body, ∃ t ∈ d.declared?, t.lexeme = name := mem_named

lemma mem_variablesIn {name : String} {body : List Stmt} :
    name ∈ variablesIn body ↔ ∃ d ∈ body, ∃ t ∈ d.newVariable?, t.lexeme = name := mem_named

lemma declared?_of_newVariable? {d : Stmt} {t : Token} (h : d.newVariable? = some t) :
    d.declared? = some t := by
  cases d <;> first | exact h | cases h

lemma spares_of_notMem {name : String} {body : List Stmt} (h : name ∉ declaredIn body) :
    Node.Spares name (.stmts body) :=
  fun d hd t ht hname => absurd (mem_declaredIn.mpr ⟨d, hd, t, ht, hname⟩) h

lemma spares_of_nodup {name : String} {body : List Stmt} (h : (declaredIn body).Nodup)
    (hname : name ∈ variablesIn body) : Node.Spares name (.stmts body) := by
  induction body with
  | nil => exact List.forall_mem_nil _
  | cons d ds ih =>
    have hsplit : declaredIn (d :: ds) = declaredIn [d] ++ declaredIn ds :=
      Site.declaredIn_append [d] ds
    rw [hsplit] at h
    obtain ⟨-, hds, hdisjoint⟩ := List.nodup_append.mp h
    obtain ⟨b, hb, t, ht, rfl⟩ := mem_variablesIn.mp hname
    have hdeclared := declared?_of_newVariable? ht
    rcases List.mem_cons.mp hb with rfl | hb
    · -- the first statement declares it, and so no other one does
      have hfirst : t.lexeme ∈ declaredIn [b] :=
        mem_declaredIn.mpr ⟨b, List.mem_singleton_self b, t, hdeclared, rfl⟩
      refine List.forall_mem_cons.mpr ⟨fun u hu _ => ?_, spares_of_notMem fun hmem => ?_⟩
      · exact hu.symm.trans hdeclared ▸ ht
      · exact hdisjoint _ hfirst _ hmem rfl
    · have hlater := ih hds (mem_variablesIn.mpr ⟨b, hb, t, ht, rfl⟩)
      refine List.forall_mem_cons.mpr ⟨fun u hu hname => ?_, hlater⟩
      have hfirst : t.lexeme ∈ declaredIn [d] :=
        mem_declaredIn.mpr ⟨d, List.mem_singleton_self d, u, hu, hname⟩
      exact absurd rfl (hdisjoint _ hfirst _ (mem_declaredIn.mpr ⟨b, hb, t, hdeclared, rfl⟩))

/-! ### Strictness -/

namespace Node.Renamed

variable {r : Renaming}

lemma declared_eq {marks : List Bool} {d : Stmt} {t : Token}
    (hspares : marks.getD 0 false → Node.Spares r.old (.stmt d)) (hd : d.declared? = some t)
    (hvariable : d.newVariable? = none) (hnew : t.lexeme ≠ r.new) : r.declared marks t = t := by
  rw [Renaming.declared]
  cases hm : marks.getD 0 false with
  | false => rfl
  | true =>
    have hold : t.lexeme ≠ r.old := by
      intro h
      have hsome := hspares hm t hd h
      rw [hvariable] at hsome
      cases hsome
    exact congrArg (fun lexeme => { t with lexeme }) (Renaming.key_of_ne hold hnew)

lemma spares_branch {d b : Stmt} {name : String} (hd : d.Orderly) (hb : b ∈ d.branches) :
    Node.Spares name (.stmt b) := by
  intro t ht
  rw [hd.declared?_branches b hb] at ht
  cases ht

/-- In an accepted tree a name is declared once in each scope. So where it is that of a variable or
parameter, no function or class there has it. -/
theorem strictly {marks : List Bool} {n n' : Node} (h : Node.Renamed false r marks n n') :
    ∀ {ctx : Context} {s : Survey}, Tidy n ctx s → n.Avoids r.new →
      (marks.getD 0 false → n.Spares r.old) → Node.Renamed true r marks n n' := by
  induction h with
  | expr => exact fun _ _ _ => .expr
  | expression => exact fun _ _ _ => .expression
  | print => exact fun _ _ _ => .print
  | declare => exact fun _ _ _ => .declare
  | @block marks body body' mark hmark _ ih =>
    intro ctx s hs hnew _
    have hinside := hs.inside .block
    refine .block hmark (ih hinside hnew.inner fun hm => ?_)
    exact spares_of_nodup (hinside.nodup_declaredIn rfl).1 (hmark hm)
  | @ifThen marks c t t' _ ih =>
    intro ctx s hs hnew _
    have ht : t ∈ (Stmt.branch c t none).branches := List.mem_cons_self ..
    have hbranches := hs.inside (@Inside.branches (.branch c t none) ctx s (List.cons_ne_nil _ _))
    exact .ifThen (ih (hbranches.inside .firstStmt) (hnew.branches t ht)
      fun _ => spares_branch hs.orderly ht)
  | @ifElse marks c t t' e e' _ _ ih ih' =>
    intro ctx s hs hnew _
    have ht : t ∈ (Stmt.branch c t (some e)).branches := List.mem_cons_self ..
    have he : e ∈ (Stmt.branch c t (some e)).branches :=
      List.mem_cons_of_mem _ (List.mem_cons_self ..)
    have hbranches :=
      hs.inside (@Inside.branches (.branch c t (some e)) ctx s (List.cons_ne_nil _ _))
    refine .ifElse ?_ ?_
    · exact ih (hbranches.inside .firstStmt) (hnew.branches t ht)
        fun _ => spares_branch hs.orderly ht
    · exact ih' ((hbranches.inside .laterStmts).inside .firstStmt) (hnew.branches e he)
        fun _ => spares_branch hs.orderly he
  | @loop marks c body body' _ ih =>
    intro ctx s hs hnew _
    have hbody : body ∈ (Stmt.loop c body).branches := List.mem_cons_self ..
    have hbranches := hs.inside (@Inside.branches (.loop c body) ctx s (List.cons_ne_nil _ _))
    exact .loop (ih (hbranches.inside .firstStmt) (hnew.branches body hbody)
      fun _ => spares_branch hs.orderly hbody)
  | breakLoop => exact fun _ _ _ => .breakLoop
  | @function marks d d' _ _ ih =>
    intro ctx s hs hnew hspares
    have hname : r.declared marks d.name = d.name :=
      declared_eq hspares rfl rfl (hnew.given _ (List.mem_cons_self ..))
    exact .function (fun _ => hname) (ih (hs.inside .function) hnew.function fun _ => trivial)
  | returnFrom => exact fun _ _ _ => .returnFrom
  | @classDecl marks name ms ms' ss ss' _ _ hss ih ih' =>
    intro ctx s hs hnew hspares
    have hname : r.declared marks name = name :=
      declared_eq hspares rfl rfl (hnew.given _ (List.mem_cons_self ..))
    have hms := ih (hs.inside .methods) (fun d hd => hnew.member (List.mem_append_left _ hd))
      fun hm => absurd hm Bool.false_ne_true
    refine .classDecl (fun _ => hname) hms ?_
    cases ss with
    | nil =>
      cases hss
      exact .noStatics
    | cons d ds =>
      exact ih' (hs.inside (.statics rfl rfl))
        (fun d hd => hnew.member (List.mem_append_right _ hd))
        fun hm => absurd hm Bool.false_ne_true
  | nil => exact fun _ _ _ => .nil
  | cons _ _ ih ih' =>
    intro ctx s hs hnew hspares
    have hfirst := ih (hs.inside .firstStmt) (hnew _ (List.mem_cons_self ..))
      fun hm => hspares hm _ (List.mem_cons_self ..)
    have hlater := ih' (hs.inside .laterStmts) (fun d hd => hnew d (List.mem_cons_of_mem _ hd))
      fun hm d hd => hspares hm d (List.mem_cons_of_mem _ hd)
    exact .cons hfirst hlater
  | @body marks sort name params code code' mark hmark _ ih =>
    intro ctx s hs hnew _
    have hinside := hs.inside .body
    refine .body hmark (ih hinside hnew.body fun hm => ?_)
    have hshape := (@Inside.body (.mk name params code) sort ctx s).shape_eq hs.orderly hs.fits
      hinside.clean
    obtain ⟨hnodup, hfresh⟩ := hinside.nodup_declaredIn (hshape.trans (Shape.afterParams_cons ..))
    rcases List.mem_append.mp (hmark hm) with hparam | hvariable
    · refine spares_of_notMem fun hmem => ?_
      simpa [FunctionDecl.paramList, FunctionDecl.params, hparam] using hfresh r.old hmem
    · exact spares_of_nodup hnodup hvariable
  | noMethods => exact fun _ _ _ => .noMethods
  | method _ _ ih ih' =>
    intro ctx s hs hnew _
    have hfirst := ih (hs.inside .firstMethod) (hnew _ (List.mem_cons_self ..)) fun _ => trivial
    have hlater := ih' (hs.inside .laterMethods) (fun d hd => hnew d (List.mem_cons_of_mem _ hd))
      fun _ => trivial
    exact .method hfirst hlater
  | noStatics => exact fun _ _ _ => .noStatics
  | static _ _ ih ih' =>
    intro ctx s hs hnew _
    have hfirst := ih (hs.inside .firstStatic) (hnew _ (List.mem_cons_self ..)) fun _ => trivial
    have hlater := ih' (hs.inside .laterStatics) (fun d hd => hnew d (List.mem_cons_of_mem _ hd))
      fun _ => trivial
    exact .static hfirst hlater

end Node.Renamed

end Scope

end Lox
