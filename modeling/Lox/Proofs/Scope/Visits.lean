import Lox.Proofs.Scope.Standing
import Lox.Scope.Distances

/-!
Where a survey comes to each part of a tree, and which scopes are open there.

A scope is known by what opens it and by the survey at that point. A visit is a part of a tree with
the scopes that are open around it, the context, and the survey when it comes there.
-/

namespace Lox.Scope

/-- What a survey can come to. -/
inductive Node
  | expr (e : Expr)
  | exprs (es : List Expr)
  | stmt (d : Stmt)
  | stmts (body : List Stmt)
  | function (body : Body) (d : FunctionDecl)
  | methods (ds : List FunctionDecl)
  | statics (ds : List FunctionDecl)

/-- A scope: what opens it, with the context and the survey before. -/
inductive Region
  | block (ctx : Context) (s : Survey) (body : List Stmt)
  | function (ctx : Context) (s : Survey) (body : Body) (d : FunctionDecl)
  | methods (ctx : Context) (s : Survey) (className : Token) (ds : List FunctionDecl)
  | statics (ctx : Context) (s : Survey) (className : Token) (ds : List FunctionDecl)

namespace Node

/-- The survey of a node. -/
def survey (ctx : Context) : Node → Survey → Survey
  | expr e => Survey.expr ctx e
  | exprs es => Survey.exprs ctx es
  | stmt d => Survey.stmt ctx d
  | stmts body => Survey.stmts ctx body
  | function body d => Survey.function ctx body d
  | methods ds => Survey.methodList ctx ds
  | statics ds => Survey.staticList ctx ds

/-- The numbers in a node. -/
def ids : Node → List NodeId
  | expr e => e.ids
  | exprs es => Expr.idsOf es
  | stmt d => d.ids
  | stmts body => Stmt.idsOf body
  | function _ d => Stmt.idsOfDecl d
  | methods ds => Stmt.idsOfDecls ds
  | statics ds => Stmt.idsOfDecls ds

def Orderly : Node → Prop
  | expr e => e.Orderly
  | exprs es => ∀ e ∈ es, e.Orderly
  | stmt d => d.Orderly
  | stmts body => ∀ d ∈ body, d.Orderly
  | function _ d => ∀ b ∈ d.body, b.Orderly
  | methods ds => ∀ d ∈ ds, ∀ b ∈ d.body, b.Orderly
  | statics ds => ∀ d ∈ ds, ∀ b ∈ d.body, b.Orderly

/-- What may be known of names where a survey comes to a node: names wait only for the value of an
expression. -/
def Fits : Node → Shape → Prop
  | expr _, S => S.Apt
  | exprs _, S => S.Apt
  | _, S => S.Settled

end Node

namespace Region

/-- The survey right after the scope is opened. For a function that is after its parameters. -/
def opened : Region → Survey
  | block _ s _ => s.openLayer []
  | function _ s _ d => d.paramList.foldl (·.introduce ·) (s.openLayer [])
  | methods _ s className _ => s.openLayer (.ofThis className)
  | statics _ s className _ => s.openLayer (.ofThis className)

/-- The survey right before the scope is closed. -/
def complete : Region → Survey
  | x@(block ctx _ body) => Survey.stmts ctx body x.opened
  | x@(function ctx _ body d) => Survey.stmts { ctx with body } d.body x.opened
  | x@(methods ctx _ _ ds) => Survey.methodList ctx ds x.opened
  | x@(statics ctx _ _ ds) => Survey.staticList ctx ds x.opened

/-- The names that are declared directly in the scope. -/
def Declares (x : Region) (name : String) : Prop :=
  ∃ l, x.complete.layers[0]? = some l ∧ l.contains name

/-- Whether the scope is one around methods. -/
def IsThis : Region → Prop
  | methods .. => True
  | statics .. => True
  | _ => False

end Region

/-! ### Visits -/

/-- From a visit of a node the survey comes directly to a node inside it, maybe in a scope that is
opened for that. -/
inductive Inside : Node → Context → Survey → List Region → Node → Context → Survey → Prop
  | parts {e ctx s} : Inside (.expr e) ctx s [] (.exprs e.parts) ctx s
  | firstExpr {e es ctx s} : Inside (.exprs (e :: es)) ctx s [] (.expr e) ctx s
  | laterExprs {e es ctx s} :
      Inside (.exprs (e :: es)) ctx s [] (.exprs es) ctx (Survey.expr ctx e s)
  | heads {d ctx s} : d.heads ≠ [] → Inside (.stmt d) ctx s [] (.exprs d.heads) ctx s
  | branches {d ctx s} : d.branches ≠ [] →
      Inside (.stmt d) ctx s [] (.stmts d.branches) ctx (Survey.exprs ctx d.heads s)
  | returned {keyword e ctx s} : Inside (.stmt (.returnFrom keyword (some e))) ctx s []
      (.expr e) ctx (s.returnPlace ctx keyword (some e))
  | initial {name e ctx s} : Inside (.stmt (.declare name (some e))) ctx s []
      (.expr e) ctx (s.declare name)
  | block {body ctx s} : Inside (.stmt (.block body)) ctx s [.block ctx s body]
      (.stmts body) ctx (Region.block ctx s body).opened
  | function {d ctx s} : Inside (.stmt (.function d)) ctx s []
      (.function .function d) ctx (s.introduce d.name)
  | methods {name ms ss ctx s} : Inside (.stmt (.classDecl name ms ss)) ctx s
      [.methods { ctx with inClass := true } (s.introduce name) name ms]
      (.methods ms) { ctx with inClass := true }
      (Region.methods { ctx with inClass := true } (s.introduce name) name ms).opened
  | statics {name ms ss ctx s s'} : ss.isEmpty = false →
      s' = (Region.methods { ctx with inClass := true } (s.introduce name) name
        ms).complete.closeLayer →
      Inside (.stmt (.classDecl name ms ss)) ctx s
      [.statics { ctx with inClass := true } s' name ss]
      (.statics ss) { ctx with inClass := true }
      (Region.statics { ctx with inClass := true } s' name ss).opened
  | firstStmt {d ds ctx s} : Inside (.stmts (d :: ds)) ctx s [] (.stmt d) ctx s
  | laterStmts {d ds ctx s} :
      Inside (.stmts (d :: ds)) ctx s [] (.stmts ds) ctx (Survey.stmt ctx d s)
  | body {d body ctx s} : Inside (.function body d) ctx s [.function ctx s body d]
      (.stmts d.body) { ctx with body } (Region.function ctx s body d).opened
  | firstMethod {d ds ctx s} : Inside (.methods (d :: ds)) ctx s []
      (.function (Survey.methodBody d) d) ctx s
  | laterMethods {d ds ctx s} : Inside (.methods (d :: ds)) ctx s []
      (.methods ds) ctx (Survey.function ctx (Survey.methodBody d) d s)
  | firstStatic {d ds ctx s} : Inside (.statics (d :: ds)) ctx s [] (.function .method d) ctx s
  | laterStatics {d ds ctx s} : Inside (.statics (d :: ds)) ctx s []
      (.statics ds) ctx (Survey.function ctx .method d s)

/-- The node that stands for a whole input. -/
def rootOf : Grammar.Input → Node
  | .expression e => .expr e
  | .statements body => .stmts body

/-- In one of the inputs a survey comes to a node, with the given scopes open around it, innermost
first. -/
inductive Visited (inputs : List Grammar.Input) : List Region → Node → Context → Survey → Prop
  | root {input} : input ∈ inputs → Visited inputs [] (rootOf input) .outermost .empty
  | inside {xs n ctx s ys m ctx' s'} : Visited inputs xs n ctx s → Inside n ctx s ys m ctx' s' →
      Visited inputs (ys ++ xs) m ctx' s'

lemma Visited.mono {inputs inputs' : List Grammar.Input} {xs : List Region} {n : Node}
    {ctx : Context} {s : Survey} (h : Visited inputs xs n ctx s) (hi : inputs ⊆ inputs') :
    Visited inputs' xs n ctx s := by
  induction h with
  | root h => exact .root (hi h)
  | inside _ hin ih => exact .inside ih hin

/-! ### What visits have in common -/

/-- The innermost scopes are closed, one for each of the regions. -/
def closing (xs : List Region) (s : Survey) : Survey := xs.foldr (fun _ => Survey.closeLayer) s

namespace Inside

variable {n m : Node} {ctx ctx' : Context} {s s' : Survey} {xs : List Region}

/-- After a node inside, the survey goes on to the end of the node around it. -/
lemma leads (h : Inside n ctx s xs m ctx' s') :
    ∃ ids, Survey.Leads ids (closing xs (m.survey ctx' s')) (n.survey ctx s) := by
  cases h with
  | @parts e =>
    refine ⟨e.ownIds, ?_⟩
    dsimp only [Node.survey]
    rw [Survey.expr_eq]
    exact Survey.leads_note ctx e _
  | @firstExpr e es => exact ⟨_, Survey.leads_exprs ctx es (fun e _ => Survey.leads_expr ctx e) _⟩
  | @heads d _ _ hd =>
    cases d with
    | branch c t e =>
      cases e with
      | none => exact ⟨_, Survey.leads_stmt ctx t _⟩
      | some e => exact ⟨_, Survey.leads_stmts ctx [t, e] _⟩
    | loop c body => exact ⟨_, Survey.leads_stmt ctx body _⟩
    | expression e => exact ⟨[], .refl _⟩
    | print e => exact ⟨[], .refl _⟩
    | _ => exact absurd rfl hd
  | @branches d _ _ hd =>
    cases d with
    | branch c t e => cases e <;> exact ⟨[], .refl _⟩
    | loop c body => exact ⟨[], .refl _⟩
    | _ => exact absurd rfl hd
  | initial => exact ⟨[], Survey.leads_define _ _⟩
  | @methods name ms ss =>
    dsimp only [Node.survey, Survey.stmt]
    split
    · exact ⟨[], .refl _⟩
    · exact ⟨_, (Survey.leads_staticList _ ss _).closed⟩
  | @statics name ms ss _ _ _ hss hs =>
    refine ⟨[], ?_⟩
    dsimp only [Node.survey, Survey.stmt]
    rw [hss, hs]
    exact .refl _
  | @firstStmt d ds => exact ⟨_, Survey.leads_stmts ctx ds _⟩
  | @body d =>
    cases d
    exact ⟨[], .refl _⟩
  | @firstMethod d ds => exact ⟨_, Survey.leads_methodList ctx ds _⟩
  | @firstStatic d ds => exact ⟨_, Survey.leads_staticList ctx ds _⟩
  | _ => exact ⟨[], .refl _⟩

/-- A scope that is opened is complete after the node inside. -/
lemma complete (h : Inside n ctx s xs m ctx' s') : ∀ x ∈ xs, x.complete = m.survey ctx' s' := by
  cases h <;> simp [Region.complete, Node.survey]

lemma orderly (h : Inside n ctx s xs m ctx' s') (hn : n.Orderly) : m.Orderly := by
  cases h with
  | parts =>
    obtain ⟨h, -⟩ := hn
    exact h
  | firstExpr => exact hn _ (List.mem_cons_self ..)
  | laterExprs => exact fun e he => hn e (List.mem_cons_of_mem _ he)
  | @heads d _ _ hd =>
    intro e he
    refine Stmt.Orderly.exprs hn e ?_
    cases d <;> first | exact he | exact absurd rfl hd
  | branches => exact Stmt.Orderly.branches hn
  | returned => exact Stmt.Orderly.exprs hn _ (List.mem_singleton_self _)
  | initial => exact Stmt.Orderly.exprs hn _ (List.mem_singleton_self _)
  | block => exact Stmt.Orderly.inner hn
  | function => exact Stmt.Orderly.inner hn
  | methods =>
    refine fun d hd b hb => Stmt.Orderly.inner hn b ?_
    simp only [Stmt.inner, List.mem_flatMap, List.mem_append]
    exact ⟨d, .inl hd, hb⟩
  | statics =>
    refine fun d hd b hb => Stmt.Orderly.inner hn b ?_
    simp only [Stmt.inner, List.mem_flatMap, List.mem_append]
    exact ⟨d, .inr hd, hb⟩
  | firstStmt => exact hn _ (List.mem_cons_self ..)
  | laterStmts => exact fun e he => hn e (List.mem_cons_of_mem _ he)
  | body => exact hn
  | firstMethod => exact hn _ (List.mem_cons_self ..)
  | laterMethods => exact fun e he => hn e (List.mem_cons_of_mem _ he)
  | firstStatic => exact hn _ (List.mem_cons_self ..)
  | laterStatics => exact fun e he => hn e (List.mem_cons_of_mem _ he)

end Inside

/-! ### What is known at a visit -/

/-- What is known where a survey comes from a node to another inside it. -/
def Shape.entering (S : Shape) : Node → Node → Shape
  | .stmt (.declare name _), _ => S.put name.lexeme false
  | .stmt (.block _), _ => Layer.standing [] :: S
  | .stmt (.function d), _ => S.put d.name.lexeme true
  | .stmt (.classDecl name _ _), _ => Layer.thisStanding :: S.put name.lexeme true
  | .stmts (d :: _), .stmts _ => S.after d
  | .function _ d, _ => Shape.afterParams (Layer.standing [] :: S) d.paramList
  | _, _ => S

namespace Inside

variable {n m : Node} {ctx ctx' : Context} {s s' : Survey} {xs : List Region}

lemma shape_eq (h : Inside n ctx s xs m ctx' s') (hn : n.Orderly) (hs : n.Fits s.shape)
    (hm : (m.survey ctx' s').Clean) : s'.shape = s.shape.entering n m := by
  cases h with
  | parts => rfl
  | firstExpr => rfl
  | @laterExprs e es =>
    have hclean := (Survey.leads_exprs ctx es (fun e _ => Survey.leads_expr ctx e) _).clean hm
    exact Survey.shape_expr (hn e (List.mem_cons_self ..)) s hs hclean
  | @heads d _ _ hd => cases d <;> first | rfl | exact absurd rfl hd
  | @branches d _ _ hd =>
    have hclean := (Survey.leads_stmts ctx d.branches _).clean hm
    cases d with
    | branch c t e => exact Survey.shape_expr (hn.exprs c (by simp [Stmt.exprs])) s hs.apt hclean
    | loop c body => exact Survey.shape_expr (hn.exprs c (by simp [Stmt.exprs])) s hs.apt hclean
    | _ => exact absurd rfl hd
  | returned => exact Survey.shape_returnPlace ..
  | initial => exact (Survey.shape_declare s _ ((Survey.leads_expr ctx _ _).clean hm)).1
  | block => rfl
  | @function d =>
    exact Survey.shape_introduce s d.name ((Survey.leads_function ctx .function d _).clean hm)
  | @methods name ms ss =>
    have hclean := ((Survey.leads_methodList _ ms _).clean hm).of_openLayer
    have hname := Survey.shape_introduce s name hclean
    exact congrArg₂ List.cons (Layer.standing_ofThis name) hname
  | @statics name ms ss _ _ _ _ hs' =>
    subst hs'
    have hclean := ((Survey.leads_staticList _ ss _).clean hm).of_openLayer
    have hmethods : ∀ d ∈ ms, ∀ b ∈ d.body, b.Orderly := by
      refine fun d hd b hb => Stmt.Orderly.inner hn b ?_
      simp only [Stmt.inner, List.mem_flatMap, List.mem_append]
      exact ⟨d, .inl hd, hb⟩
    have hafter := Survey.shape_afterMethods (Survey.shape_methodList _ ms hmethods) hs hclean
    exact congrArg₂ List.cons (Layer.standing_ofThis name) hafter
  | firstStmt => rfl
  | @laterStmts d ds =>
    have hclean := (Survey.leads_stmts ctx ds _).clean hm
    exact Survey.shape_stmt ctx d (hn d (List.mem_cons_self ..)) s hs hclean
  | @body d =>
    exact Survey.shape_params d.paramList _ ((Survey.leads_stmts _ d.body _).clean hm)
  | firstMethod => rfl
  | @laterMethods d ds =>
    have hclean := (Survey.leads_methodList ctx ds _).clean hm
    exact Survey.shape_function ctx _ d (hn d (List.mem_cons_self ..)) s hs hclean
  | firstStatic => rfl
  | @laterStatics d ds =>
    have hclean := (Survey.leads_staticList ctx ds _).clean hm
    exact Survey.shape_function ctx _ d (hn d (List.mem_cons_self ..)) s hs hclean

lemma fits (h : Inside n ctx s xs m ctx' s') (hn : n.Orderly) {S : Shape} (hs : n.Fits S) :
    m.Fits (S.entering n m) := by
  cases h with
  | parts => exact hs
  | firstExpr => exact hs
  | laterExprs => exact hs
  | @heads d _ _ hd => cases d <;> first | exact hs.apt | exact absurd rfl hd
  | @branches d _ _ hd => cases d <;> first | exact hs | exact absurd rfl hd
  | returned => exact hs.apt
  | initial => exact hs.apt_put hn.name
  | block => exact hs.cons Survey.standing_nil_ne
  | function => exact hs.put _
  | methods => exact (hs.put _).cons Survey.thisStanding_ne
  | statics => exact (hs.put _).cons Survey.thisStanding_ne
  | firstStmt => exact hs
  | laterStmts => exact hs.after _
  | body => exact (hs.cons Survey.standing_nil_ne).afterParams _
  | firstMethod => exact hs
  | laterMethods => exact hs
  | firstStatic => exact hs
  | laterStatics => exact hs

end Inside

/-- The statements of an input; an expression has none. -/
def bodyOf : Grammar.Input → List Stmt
  | .expression _ => []
  | .statements body => body

/-- An input that may run: an orderly tree without complaints, in which each `break` stands in a
loop. -/
structure Accepted (input : Grammar.Input) : Prop where
  orderly : (rootOf input).Orderly
  clean : (ofInput input).complaints = []
  admissible : ∀ d ∈ bodyOf input, Grammar.Admissible false d

/-- Each layer has no names but those of its scope. -/
abbrev Bounds (xs : List Region) (ls : List Layer) : Prop :=
  List.Forall₂ (fun (x : Region) (l : Layer) => ∀ name, l.contains name → x.Declares name) xs ls

/-- What holds wherever the survey of an accepted input comes. -/
structure Sound (inputs : List Grammar.Input) (xs : List Region) (n : Node) (ctx : Context)
    (s : Survey) : Prop where
  orderly : n.Orderly
  fits : n.Fits s.shape
  clean : (n.survey ctx s).Clean
  /-- One layer for each scope, with none but its names. -/
  layers : Bounds xs (n.survey ctx s).layers
  lookups : ∃ input ∈ inputs, ∀ l ∈ (n.survey ctx s).lookups, l ∈ (ofInput input).lookups

lemma findings_ofInput (input : Grammar.Input) :
    ofInput input = ((rootOf input).survey .outermost .empty).findings := by
  cases input <;> rfl

lemma complaints_closing (xs : List Region) (s : Survey) :
    s.complaints <:+ (closing xs s).complaints := by
  induction xs with
  | nil => exact List.suffix_refl _
  | cons x xs ih => exact ih.trans (Survey.complaints_closeLayer _).suffix

lemma lookups_closing (xs : List Region) (s : Survey) : (closing xs s).lookups = s.lookups := by
  induction xs with
  | nil => rfl
  | cons x xs ih => exact (Survey.lookups_closeLayer _).trans ih

lemma layers_closing (xs : List Region) (s : Survey) :
    (closing xs s).layers = s.layers.drop xs.length := by
  induction xs with
  | nil => rfl
  | cons x xs ih =>
    have hclose : (closing (x :: xs) s).layers = (closing xs s).layers.tail :=
      Survey.layers_closeLayer _
    rw [hclose, ih, List.tail_drop, List.length_cons]

/-- The survey of a node goes on from where it comes to it. -/
lemma leads_survey (n : Node) (ctx : Context) (s : Survey) :
    Survey.Leads n.ids s (n.survey ctx s) := by
  cases n with
  | expr e => exact Survey.leads_expr ctx e s
  | exprs es => exact Survey.leads_exprs ctx es (fun e _ => Survey.leads_expr ctx e) s
  | stmt d => exact Survey.leads_stmt ctx d s
  | stmts body => exact Survey.leads_stmts ctx body s
  | function body d => exact Survey.leads_function ctx body d s
  | methods ds => exact Survey.leads_methodList ctx ds s
  | statics ds => exact Survey.leads_staticList ctx ds s

lemma Bounds.of_within {xs : List Region} {ls ls' : List Layer} (h : Bounds xs ls')
    (hls : Survey.Within ls ls') : Bounds xs ls := by
  induction hls generalizing xs with
  | nil => exact h
  | cons hl _ ih =>
    obtain ⟨x, xs, hx, hxs, rfl⟩ := List.forall₂_cons_right_iff.mp h
    exact .cons (fun name hname => hx name (hl name hname)) (ih hxs)

/-- At most one scope is opened at once, and then it has a layer. -/
lemma Inside.opens {n m : Node} {ctx ctx' : Context} {s s' : Survey} {xs : List Region}
    (h : Inside n ctx s xs m ctx' s') : xs = [] ∨ ∃ x l ls, xs = [x] ∧ s'.layers = l :: ls := by
  cases h with
  | block => exact .inr ⟨_, _, _, rfl, rfl⟩
  | methods => exact .inr ⟨_, _, _, rfl, rfl⟩
  | statics => exact .inr ⟨_, _, _, rfl, rfl⟩
  | @body d body =>
    have hparams : Survey.Within ([] :: s.layers) (Region.function ctx s body d).opened.layers :=
      (Survey.leads_params d.paramList (s.openLayer [])).layers
    obtain ⟨l, ls, -, -, hls⟩ := List.forall₂_cons_left_iff.mp hparams
    exact .inr ⟨_, _, _, rfl, hls⟩
  | _ => exact .inl rfl

lemma Inside.bounds {n m : Node} {ctx ctx' : Context} {s s' : Survey} {xs ys : List Region}
    (h : Inside n ctx s ys m ctx' s') (hn : Bounds xs (n.survey ctx s).layers) :
    Bounds (ys ++ xs) (m.survey ctx' s').layers := by
  obtain ⟨ids, hleads⟩ := h.leads
  have hrest := hn.of_within hleads.layers
  rw [layers_closing] at hrest
  obtain rfl | ⟨x, l, ls, rfl, hs'⟩ := h.opens
  · exact hrest
  -- the new layer is that of the scope, and complete at the end of the node
  · have hcomplete := h.complete x (List.mem_singleton_self x)
    have hsurvey := (leads_survey m ctx' s').layers
    rw [hs'] at hsurvey
    obtain ⟨l', ls', -, -, hls'⟩ := List.forall₂_cons_left_iff.mp hsurvey
    rw [hls'] at hrest ⊢
    exact .cons (fun name hname => ⟨l', by rw [hcomplete, hls']; rfl, hname⟩) hrest

theorem Visited.sound {inputs : List Grammar.Input} (hinputs : ∀ input ∈ inputs, Accepted input)
    {xs : List Region} {n : Node} {ctx : Context} {s : Survey} (h : Visited inputs xs n ctx s) :
    Sound inputs xs n ctx s := by
  induction h with
  | @root input hinput =>
    obtain ⟨horderly, hclean, -⟩ := hinputs input hinput
    rw [findings_ofInput] at hclean
    refine ⟨horderly, ?_, List.reverse_eq_nil_iff.mp hclean, ?_, input, hinput, fun l hl => ?_⟩
    · cases input <;> exact nofun
    · have hempty := (leads_survey (rootOf input) .outermost .empty).layers
      rw [List.forall₂_nil_left_iff.mp hempty]
      exact .nil
    · rw [findings_ofInput]
      exact List.mem_reverse.mpr hl
  | @inside xs n ctx s ys m ctx' s' _ hin ih =>
    obtain ⟨ids, hleads⟩ := hin.leads
    -- no complaint is ever taken back, so there is none at the node inside
    have hclean := (hleads.clean ih.clean).of_suffix (complaints_closing ys _)
    refine ⟨hin.orderly ih.orderly, ?_, hclean, hin.bounds ih.layers, ?_⟩
    · rw [hin.shape_eq ih.orderly ih.fits hclean]
      exact hin.fits ih.orderly ih.fits
    · obtain ⟨input, hinput, hl⟩ := ih.lookups
      refine ⟨input, hinput, fun l hl' => hl l (hleads.lookups_suffix.subset ?_)⟩
      rw [lookups_closing]
      exact hl'

/-- The names that are known in the innermost scope are declared there. -/
lemma Visited.declares {inputs : List Grammar.Input} (hinputs : ∀ input ∈ inputs, Accepted input)
    {x : Region} {xs : List Region} {n : Node} {ctx : Context} {s : Survey}
    (h : Visited inputs (x :: xs) n ctx s) {l : Standing} {S : Shape} (hs : s.shape = l :: S)
    {name : String} (hl : l name ≠ none) : x.Declares name := by
  have hbounds := (h.sound hinputs).layers.of_within (leads_survey n ctx s).layers
  obtain ⟨m, ls, hm, -, hlayers⟩ := List.forall₂_cons_left_iff.mp hbounds
  refine hm name ?_
  rw [Survey.shape, hlayers, List.map_cons] at hs
  obtain ⟨rfl, -⟩ := List.cons.inj hs
  rw [Layer.contains_iff_standing]
  exact Option.isSome_iff_ne_none.mpr hl

/-- The nodes that are run in a scope, other than functions, which are called. -/
def Node.Runs : Node → Prop
  | expr _ => True
  | exprs _ => True
  | stmt _ => True
  | stmts _ => True
  | _ => False

/-- Between the scope around methods and what runs there is always the scope of a method. -/
lemma Visited.not_isThis {inputs : List Grammar.Input} {xs : List Region} {n : Node}
    {ctx : Context} {s : Survey} (h : Visited inputs xs n ctx s) (hn : n.Runs) :
    ∀ x, xs[0]? = some x → ¬x.IsThis := by
  induction h with
  | root => exact nofun
  | inside _ hin ih =>
    cases hin with
    | block => rintro _ ⟨⟩; exact not_false
    | body => rintro _ ⟨⟩; exact not_false
    | methods => exact hn.elim
    | statics => exact hn.elim
    | function => exact hn.elim
    | firstMethod => exact hn.elim
    | laterMethods => exact hn.elim
    | firstStatic => exact hn.elim
    | laterStatics => exact hn.elim
    | _ => exact ih trivial

end Lox.Scope
