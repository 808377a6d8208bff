import Mathlib.Data.List.Forall2
import Mathlib.Data.List.Perm.Subperm
import Mathlib.Tactic.Common
import Lox.Proofs.Grammar.Derivation
import Lox.Scope.Survey

/-!
How a survey goes on.

Whatever a survey visits, the layers that are open before are open after, names are added to them
but never removed, and what was noted before stays. References are noted under the numbers of the
tree.
-/

namespace Lox

namespace Expr

/-- The expressions directly inside an expression, in the order in which a survey visits them. -/
def parts : Expr → List Expr
  | literal _ => []
  | group e => [e]
  | unary _ e => [e]
  | binary l _ r => [l, r]
  | logical l _ r => [l, r]
  | conditional c t e => [c, t, e]
  | reference .. => []
  | assign _ _ value => [value]
  | call callee _ arguments => callee :: arguments
  | property object _ => [object]
  | setProperty object _ value => [value, object]
  | this .. => []

lemma sizeOf_lt_of_mem_parts {p e : Expr} (h : p ∈ e.parts) : sizeOf p < sizeOf e := by
  cases e with
  | call callee paren arguments =>
    rcases List.mem_cons.mp h with rfl | h
    · simp only [call.sizeOf_spec]; omega
    · have := List.sizeOf_lt_of_mem h
      simp only [call.sizeOf_spec]
      omega
  | _ =>
    simp only [parts, List.mem_cons, List.not_mem_nil, or_false] at h
    all_goals grind

/-- Induction over the parts of expressions. -/
theorem induction_parts {P : Expr → Prop} (h : ∀ e : Expr, (∀ p ∈ e.parts, P p) → P e) (e : Expr) :
    P e :=
  h e fun p _ => induction_parts h p
termination_by sizeOf e
decreasing_by exact sizeOf_lt_of_mem_parts ‹_›

/-- The number of an expression itself. -/
def ownIds : Expr → List NodeId
  | reference id _ => [id]
  | assign id _ _ => [id]
  | this id _ => [id]
  | _ => []

lemma ids_perm_parts (e : Expr) : (idsOf e.parts ++ e.ownIds).Perm e.ids := by
  cases e with
  | setProperty object name value =>
    simpa [parts, ownIds, ids, idsOf] using List.perm_append_comm
  | _ => simp [parts, ownIds, ids, idsOf]

end Expr

namespace Scope.Survey

/-- What a survey notes at an expression itself, after its parts. -/
def note (ctx : Context) (s : Survey) : Expr → Survey
  | .reference id name => s.readName id name
  | .assign id name _ => s.refer id name.lexeme false
  | .this id keyword =>
    if ctx.inClass then s.refer id keyword.lexeme true
    else s.complain keyword .thisOutsideClass
  | _ => s

lemma expr_eq (ctx : Context) (e : Expr) (s : Survey) :
    expr ctx e s = (exprs ctx e.parts s).note ctx e := by
  cases e <;> rfl

/-! ### What one survey leads to -/

/-- The layers of the second list declare the names of the first, and maybe more. -/
def Within (ls ls' : List Layer) : Prop :=
  List.Forall₂ (fun l l' : Layer => ∀ name, l.contains name → l'.contains name) ls ls'

lemma Within.refl (ls : List Layer) : Within ls ls := List.forall₂_same.mpr fun _ _ _ h => h

lemma Within.trans {ls ls' ls'' : List Layer} (h : Within ls ls') (h' : Within ls' ls'') :
    Within ls ls'' := by
  induction h generalizing ls'' with
  | nil => exact h'
  | cons hl _ ih =>
    obtain ⟨l'', rest, hl', hrest, rfl⟩ := List.forall₂_cons_left_iff.mp h'
    exact .cons (fun name h => hl' name (hl name h)) (ih hrest)

/-- The second list of complaints goes on from the first with complaints about names. -/
def Complains (cs cs' : List Complaint) : Prop :=
  ∃ more, cs' = more ++ cs ∧ ∀ c ∈ more, ∃ line place f, c = Complaint.scope line place f

lemma Complains.refl (cs : List Complaint) : Complains cs cs :=
  ⟨[], rfl, fun _ h => absurd h List.not_mem_nil⟩

lemma Complains.trans {cs cs' cs'' : List Complaint} (h : Complains cs cs')
    (h' : Complains cs' cs'') : Complains cs cs'' := by
  obtain ⟨more, rfl, hmore⟩ := h
  obtain ⟨more', rfl, hmore'⟩ := h'
  exact ⟨more' ++ more, (List.append_assoc ..).symm, List.forall_mem_append.mpr ⟨hmore', hmore⟩⟩

lemma Complains.suffix {cs cs' : List Complaint} (h : Complains cs cs') : cs <:+ cs' := by
  obtain ⟨more, rfl, -⟩ := h
  exact List.suffix_append ..

lemma complains_complain (s : Survey) (t : Token) (f : Fault) :
    Complains s.complaints (s.complain t f).complaints :=
  ⟨[_], rfl, List.forall_mem_singleton.mpr ⟨_, _, _, rfl⟩⟩

/-- The second survey goes on from the first, and notes references with the given numbers, each at
most once. -/
structure Leads (ids : List NodeId) (s s' : Survey) : Prop where
  layers : Within s.layers s'.layers
  lookups : ∃ more, s'.lookups = more ++ s.lookups ∧ List.Subperm (more.map (·.id)) ids
  complaints : Complains s.complaints s'.complaints

section
variable {s s' s'' : Survey} {xs ys : List NodeId}

lemma leads_of_layers (h : Within s.layers s'.layers) (hl : s'.lookups = s.lookups)
    (hc : Complains s.complaints s'.complaints) : Leads xs s s' :=
  ⟨h, ⟨[], hl, List.nil_subperm⟩, hc⟩

lemma Leads.refl (s : Survey) : Leads xs s s :=
  leads_of_layers (.refl _) rfl (.refl _)

lemma Leads.trans (h : Leads xs s s') (h' : Leads ys s' s'') : Leads (xs ++ ys) s s'' := by
  obtain ⟨more, hmore, hids⟩ := h.lookups
  obtain ⟨more', hmore', hids'⟩ := h'.lookups
  refine ⟨h.layers.trans h'.layers, ⟨more' ++ more, ?_, ?_⟩, h.complaints.trans h'.complaints⟩
  · rw [hmore', hmore, List.append_assoc]
  · rw [List.map_append]
    exact List.perm_append_comm.subperm.trans (hids.append hids')

lemma Leads.mono (h : Leads xs s s') (hxs : List.Subperm xs ys) : Leads ys s s' := by
  obtain ⟨more, hmore, hids⟩ := h.lookups
  exact ⟨h.layers, ⟨more, hmore, hids.trans hxs⟩, h.complaints⟩

/-- A step that notes no reference. -/
lemma Leads.andThen (h : Leads xs s s') (h' : Leads [] s' s'') : Leads xs s s'' :=
  (h.trans h').mono (by rw [List.append_nil])

lemma Leads.after (h : Leads [] s s') (h' : Leads xs s' s'') : Leads xs s s'' :=
  h.trans h'

lemma Leads.lookups_suffix (h : Leads xs s s') : s.lookups <:+ s'.lookups := by
  obtain ⟨more, hmore, -⟩ := h.lookups
  exact ⟨more, hmore.symm⟩

/-! ### Single notes -/

lemma leads_complain (s : Survey) (t : Token) (f : Fault) : Leads xs s (s.complain t f) :=
  leads_of_layers (.refl _) rfl (complains_complain ..)

lemma contains_declare {l : Layer} {t : Token} {name : String} (h : l.contains name) :
    (l.declare t).contains name := by
  unfold Table.contains Layer.declare at *
  rw [Table.get?_insert]
  split
  · rfl
  · exact h

lemma contains_mark {l : Layer} {x name : String} {st : Status} :
    (l.mark x st).contains name = l.contains name := by
  unfold Layer.mark Table.contains
  cases hx : l.get? x with
  | none => rfl
  | some v =>
    rw [Table.get?_insert]
    split
    · rename_i h
      subst h
      simp [hx]
    · rfl

lemma leads_declare (s : Survey) (name : Token) : Leads xs s (s.declare name) := by
  unfold declare
  split
  · exact .refl s
  · rename_i l rest hs
    split
    · exact leads_complain s name _
    · refine leads_of_layers ?_ rfl (.refl _)
      rw [hs]
      exact .cons (fun _ h => contains_declare h) (Within.refl _)

lemma leads_define (s : Survey) (name : Token) : Leads xs s (s.define name) := by
  unfold define
  split
  · exact .refl s
  · rename_i l rest hs
    split
    · refine leads_of_layers ?_ rfl (.refl _)
      rw [hs]
      exact .cons (fun _ h => contains_mark.trans h) (Within.refl _)
    · exact .refl s

lemma leads_introduce (s : Survey) (name : Token) : Leads xs s (s.introduce name) :=
  (@leads_declare [] s name).after (leads_define _ name)

lemma names_modify_mark (ls : List Layer) (d : ℕ) (x : String) (st : Status) :
    Within ls (ls.modify d (·.mark x st)) := by
  induction ls generalizing d with
  | nil => cases d <;> exact .nil
  | cons l ls ih =>
    cases d with
    | zero => exact .cons (fun _ h => contains_mark.trans h) (Within.refl _)
    | succ d => exact .cons (fun _ h => h) (ih d)

lemma leads_refer (s : Survey) (id : NodeId) (name : String) (reads : Bool) :
    Leads [id] s (s.refer id name reads) := by
  refine ⟨?_, ⟨[⟨id, name, s.depth? name⟩], rfl, List.Subperm.refl _⟩, .refl _⟩
  unfold refer
  dsimp only
  split
  · exact names_modify_mark ..
  · exact .refl _

lemma leads_readName (s : Survey) (id : NodeId) (name : Token) :
    Leads [id] s (s.readName id name) := by
  unfold readName
  refine Leads.after ?_ (leads_refer ..)
  split
  · exact leads_complain ..
  · exact .refl s

lemma leads_note (ctx : Context) (e : Expr) (s : Survey) : Leads e.ownIds s (s.note ctx e) := by
  cases e with
  | reference id name => exact leads_readName s id name
  | assign id name value => exact leads_refer s id name.lexeme false
  | this id keyword =>
    rw [note]
    split
    · exact leads_refer s id keyword.lexeme true
    · exact leads_complain ..
  | _ => exact .refl s

lemma leads_returnPlace (s : Survey) (ctx : Context) (keyword : Token) (value : Option Expr) :
    Leads xs s (s.returnPlace ctx keyword value) := by
  unfold returnPlace
  split <;> dsimp only <;> split
  · exact (@leads_complain xs s _ _).andThen (leads_complain ..)
  · exact leads_complain ..
  · exact leads_complain ..
  · exact .refl s

/-! ### Layers -/

lemma complaints_foldl_complain (ts : List Token) (f : Fault) (s : Survey) :
    Complains s.complaints (ts.foldl (·.complain · f) s).complaints := by
  induction ts generalizing s with
  | nil => exact .refl _
  | cons t ts ih => exact (complains_complain s t f).trans (ih (s.complain t f))

lemma foldl_complain (ts : List Token) (f : Fault) (s : Survey) :
    (ts.foldl (·.complain · f) s).layers = s.layers ∧
      (ts.foldl (·.complain · f) s).lookups = s.lookups := by
  induction ts generalizing s with
  | nil => exact ⟨rfl, rfl⟩
  | cons t ts ih => exact ih _

@[simp] lemma layers_closeLayer (s : Survey) : s.closeLayer.layers = s.layers.tail := by
  unfold closeLayer
  split
  · rename_i h; rw [h]; rfl
  · rename_i h; rw [(foldl_complain ..).1, h]; rfl

@[simp] lemma lookups_closeLayer (s : Survey) : s.closeLayer.lookups = s.lookups := by
  unfold closeLayer
  split
  · rfl
  · rw [(foldl_complain ..).2]

lemma complaints_closeLayer (s : Survey) : Complains s.complaints s.closeLayer.complaints := by
  unfold closeLayer
  split
  · exact .refl _
  · rename_i l rest _
    exact complaints_foldl_complain l.unread .neverRead { s with layers := rest }

/-- What goes on inside a layer leaves the layers around it open. -/
lemma Leads.closed {l : Layer} (h : Leads xs (s.openLayer l) s') : Leads xs s s'.closeLayer := by
  obtain ⟨more, hmore, hids⟩ := h.lookups
  refine ⟨?_, ⟨more, ?_, hids⟩, h.complaints.trans (complaints_closeLayer s')⟩
  · rw [layers_closeLayer]
    obtain ⟨l', ls, -, hls, h'⟩ := List.forall₂_cons_left_iff.mp h.layers
    rw [h']
    exact hls
  · rw [lookups_closeLayer]; exact hmore

end

/-! ### Trees -/

lemma leads_exprs (ctx : Context) (es : List Expr)
    (h : ∀ e ∈ es, ∀ s, Leads e.ids s (expr ctx e s)) (s : Survey) :
    Leads (Expr.idsOf es) s (exprs ctx es s) := by
  induction es generalizing s with
  | nil => exact .refl s
  | cons e es ih =>
    have he := h e (List.mem_cons_self ..) s
    exact he.trans (ih (fun e he => h e (List.mem_cons_of_mem _ he)) _)

theorem leads_expr (ctx : Context) (e : Expr) : ∀ s, Leads e.ids s (expr ctx e s) := by
  induction e using Expr.induction_parts with
  | h e ih =>
    intro s
    rw [expr_eq]
    have hparts := leads_exprs ctx e.parts ih s
    exact (hparts.trans (leads_note ctx e _)).mono e.ids_perm_parts.subperm

lemma leads_params (params : List Token) (s : Survey) :
    Leads [] s (params.foldl (·.introduce ·) s) := by
  induction params generalizing s with
  | nil => exact .refl s
  | cons p ps ih => exact (leads_introduce s p).after (ih _)

mutual

theorem leads_stmt (ctx : Context) : ∀ d s, Leads d.ids s (stmt ctx d s)
  | .expression e, s => leads_expr ctx e s
  | .print e, s => leads_expr ctx e s
  | .declare name none, s => leads_introduce s name
  | .declare name (some e), s =>
    ((leads_declare s name).after (leads_expr ctx e _)).andThen (leads_define _ name)
  | .block body, s => (leads_stmts ctx body (s.openLayer [])).closed
  | .branch c t none, s => (leads_expr ctx c s).trans (leads_stmt ctx t _)
  | .branch c t (some e), s =>
    (leads_expr ctx c s).trans ((leads_stmt ctx t _).trans (leads_stmt ctx e _))
  | .loop c body, s => (leads_expr ctx c s).trans (leads_stmt ctx body _)
  | .breakLoop _, s => .refl s
  | .function d, s => (leads_introduce s d.name).after (leads_function ctx .function d _)
  | .returnFrom keyword none, s => leads_returnPlace s ctx keyword none
  | .returnFrom keyword (some e), s =>
    (leads_returnPlace s ctx keyword (some e)).after (leads_expr ctx e _)
  | .classDecl name methods statics, s => by
    have hmethods := (leads_methodList { ctx with inClass := true } methods
      ((s.introduce name).openLayer (.ofThis name))).closed
    have hclass := (@leads_introduce [] s name).after hmethods
    simp only [stmt, Stmt.ids]
    split
    · exact hclass.mono (List.sublist_append_left ..).subperm
    · exact hclass.trans (leads_staticList _ statics _).closed

theorem leads_stmts (ctx : Context) : ∀ body s, Leads (Stmt.idsOf body) s (stmts ctx body s)
  | [], s => .refl s
  | d :: ds, s => (leads_stmt ctx d s).trans (leads_stmts ctx ds _)

theorem leads_function (ctx : Context) (body : Body) :
    ∀ d s, Leads (Stmt.idsOfDecl d) s (function ctx body d s)
  | .mk _ params code, s =>
    ((leads_params (params.getD []) (s.openLayer [])).after
      (leads_stmts { ctx with body } code _)).closed

theorem leads_methodList (ctx : Context) :
    ∀ ds s, Leads (Stmt.idsOfDecls ds) s (methodList ctx ds s)
  | [], s => .refl s
  | d :: ds, s => (leads_function ctx (methodBody d) d s).trans (leads_methodList ctx ds _)

theorem leads_staticList (ctx : Context) :
    ∀ ds s, Leads (Stmt.idsOfDecls ds) s (staticList ctx ds s)
  | [], s => .refl s
  | d :: ds, s => (leads_function ctx .method d s).trans (leads_staticList ctx ds _)

end

end Scope.Survey

end Lox
