import Mathlib.Logic.Function.Basic
import Lox.Proofs.Scope.Orderly

/-!
What a survey without complaints knows of the names in its scopes.

Each name that is declared in a scope waits for its value or has one. On an orderly tree without
complaints only a declaration changes that, and only for its own name in the innermost scope: so
what is known after a part of a tree can be told without surveying the part.
-/

namespace Lox.Scope

/-- What is known of the names in a scope: nothing, or whether they have a value yet. -/
abbrev Standing := String → Option Bool

/-- What is known of the names in all open scopes, innermost first. -/
abbrev Shape := List Standing

def Layer.standing (l : Layer) : Standing := fun name => (l.status? name).map (· != .declared)

def Survey.shape (s : Survey) : Shape := s.layers.map Layer.standing

namespace Shape

/-- Declares a name in the innermost scope. -/
def put (S : Shape) (name : String) (b : Bool) : Shape :=
  match S with
  | [] => []
  | l :: S => Function.update l name (some b) :: S

/-- No name waits for its value. -/
def Settled (S : Shape) : Prop := ∀ l ∈ S, ∀ name, l name ≠ some false

/-- Only in the innermost scope may a name wait for its value, and that is not `this`. -/
def Apt (S : Shape) : Prop := ∀ d l, S[d]? = some l → ∀ name, l name = some false →
  d = 0 ∧ name ≠ "this"

def depth? (S : Shape) (name : String) : Option ℕ := S.findIdx? fun l => (l name).isSome

variable {S : Shape} {name : String}

lemma Settled.apt (h : S.Settled) : S.Apt :=
  fun _ l hl name hname => absurd hname (h l (List.mem_of_getElem? hl) name)

lemma Settled.tail {l : Standing} (h : Settled (l :: S)) : S.Settled :=
  fun l hl => h l (List.mem_cons_of_mem _ hl)

lemma Settled.put (h : S.Settled) (name : String) : (S.put name true).Settled := by
  cases S with
  | nil => exact nofun
  | cons l S =>
    intro m hm n
    rcases List.mem_cons.mp hm with rfl | hm
    · by_cases hn : n = name
      · simp [hn]
      · rw [Function.update_of_ne hn]
        exact h l (List.mem_cons_self ..) n
    · exact h.tail m hm n

lemma Settled.apt_put (h : S.Settled) (hname : name ≠ "this") : (S.put name false).Apt := by
  cases S with
  | nil => exact nofun
  | cons l S =>
    intro d m hm n hn
    cases d with
    | zero =>
      obtain rfl : Function.update l name (some false) = m := by simpa [Shape.put] using hm
      refine ⟨rfl, ?_⟩
      by_cases h' : n = name
      · exact h' ▸ hname
      · rw [Function.update_of_ne h'] at hn
        exact absurd hn (h l (List.mem_cons_self ..) n)
    | succ d => exact absurd hn (h.tail m (List.mem_of_getElem? (by simpa [Shape.put] using hm)) n)

@[simp] lemma put_put (S : Shape) (name : String) (b b' : Bool) :
    (S.put name b).put name b' = S.put name b' := by
  cases S with
  | nil => rfl
  | cons l S => simp [put]

@[simp] lemma tail_put (S : Shape) (name : String) (b : Bool) : (S.put name b).tail = S.tail := by
  cases S <;> rfl

@[simp] lemma length_put (S : Shape) (name : String) (b : Bool) :
    (S.put name b).length = S.length := by
  cases S <;> rfl

lemma depth?_eq_some {d : ℕ} (h : S.depth? name = some d) :
    ∃ l b, S[d]? = some l ∧ l name = some b := by
  obtain ⟨hlt, hd, -⟩ := List.findIdx?_eq_some_iff_getElem.mp h
  obtain ⟨b, hb⟩ := Option.isSome_iff_exists.mp hd
  exact ⟨S[d], b, List.getElem?_eq_getElem hlt, hb⟩

end Shape

/-! ### Layers -/

namespace Layer

lemma standing_declare (l : Layer) (t : Token) :
    (l.declare t).standing = Function.update l.standing t.lexeme (some false) := by
  funext name
  unfold standing status? declare
  rw [Table.get?_insert, Function.update_apply]
  by_cases h : t.lexeme = name
  · simp [h]
  · simp [h, Ne.symm h]

lemma standing_mark {l : Layer} {x : String} {b : Bool} (h : l.standing x = some b) {st : Status}
    (hst : st ≠ .declared) : (l.mark x st).standing = Function.update l.standing x (some true) := by
  funext name
  unfold standing status? mark at *
  cases hx : l.get? x with
  | none => rw [hx] at h; exact nomatch h
  | some v =>
    dsimp only
    rw [Table.get?_insert, Function.update_apply]
    by_cases hn : x = name
    · simp [hn, hst]
    · simp [hn, Ne.symm hn]

lemma contains_iff_standing {l : Layer} {name : String} :
    l.contains name = (l.standing name).isSome := by
  simp [Table.contains, standing, status?]

lemma standing_eq_false {l : Layer} {name : String} :
    l.standing name = some false ↔ l.status? name = some .declared := by
  unfold standing
  cases l.status? name <;> simp

@[simp] lemma standing_nil : Layer.standing [] = fun _ => none := rfl

/-- What is known of names around methods. -/
def thisStanding : Standing := fun name => if name = "this" then some true else none

lemma standing_ofThis (t : Token) : (ofThis t).standing = thisStanding := by
  funext name
  unfold thisStanding
  by_cases h : name = "this"
  · subst h; rfl
  · have hne : ¬"this" = name := fun h' => h h'.symm
    simp [standing, status?, ofThis, Table.get?, h, hne]

end Layer

namespace Survey

variable {s : Survey} {ctx : Context}

/-! ### Complaints -/

/-- Nothing is wrong so far. -/
def Clean (s : Survey) : Prop := s.complaints = []

lemma Clean.of_suffix {s s' : Survey} (h : s'.Clean) (hs : s.complaints <:+ s'.complaints) :
    s.Clean := by
  rw [Clean] at h ⊢
  rw [h] at hs
  exact List.suffix_nil.mp hs

lemma Leads.clean {ids : List NodeId} {s s' : Survey} (h : Leads ids s s') (h' : s'.Clean) :
    s.Clean :=
  h'.of_suffix h.complaints.suffix

lemma not_clean_complain {t : Token} {f : Fault} : ¬(s.complain t f).Clean :=
  List.cons_ne_nil _ _

/-! ### Single notes -/

@[simp] lemma shape_openLayer (s : Survey) (l : Layer) :
    (s.openLayer l).shape = l.standing :: s.shape := rfl

@[simp] lemma shape_closeLayer (s : Survey) : s.closeLayer.shape = s.shape.tail := by
  rw [shape, layers_closeLayer, List.map_tail]; rfl

lemma depth?_eq (s : Survey) (name : String) : s.depth? name = s.shape.depth? name := by
  unfold depth? Shape.depth? shape
  rw [List.findIdx?_map]
  congr 1
  funext l
  exact Layer.contains_iff_standing

lemma shape_declare (s : Survey) (name : Token) (h : (s.declare name).Clean) :
    (s.declare name).shape = s.shape.put name.lexeme false ∧
      ∀ l ∈ s.shape.head?, l name.lexeme = none := by
  unfold declare at h ⊢
  split
  · rename_i hs
    rw [shape, hs]
    exact ⟨rfl, nofun⟩
  · rename_i l rest hs
    rw [hs] at h
    dsimp only at h
    split
    · rename_i hc
      rw [if_pos hc] at h
      exact absurd h not_clean_complain
    · rename_i hc
      rw [Layer.contains_iff_standing, Option.isSome_iff_ne_none, not_not] at hc
      simp only [shape, hs, List.map_cons, Shape.put, Layer.standing_declare]
      exact ⟨trivial, fun m hm => Option.some.inj hm ▸ hc⟩

lemma shape_define (s : Survey) (name : Token) (S : Shape)
    (h : s.shape = S.put name.lexeme false) :
    (s.define name).shape = S.put name.lexeme true := by
  unfold define
  split
  · rename_i hs
    rw [shape, hs] at h ⊢
    cases S with
    | nil => rfl
    | cons => exact nomatch h
  · rename_i l rest hs
    rw [shape, hs, List.map_cons] at h
    cases S with
    | nil => exact nomatch h
    | cons m S =>
      obtain ⟨hl, hrest⟩ := List.cons.inj h
      have hx : l.standing name.lexeme = some false := by rw [hl, Function.update_self]
      rw [if_pos (Layer.standing_eq_false.mp hx)]
      simp only [shape, List.map_cons, Layer.standing_mark hx (by decide : Status.defined ≠ _), hl,
        hrest, Shape.put, Function.update_idem]

lemma shape_introduce (s : Survey) (name : Token) (h : (s.introduce name).Clean) :
    (s.introduce name).shape = s.shape.put name.lexeme true := by
  have hclean : (s.declare name).Clean := (@leads_define [] _ name).clean h
  exact shape_define _ name s.shape (shape_declare s name hclean).1

lemma shape_refer (s : Survey) (id : NodeId) (name : String) (reads : Bool)
    (h : reads → ∀ d l, s.depth? name = some d → s.shape[d]? = some l → l name ≠ some false) :
    (s.refer id name reads).shape = s.shape := by
  unfold refer shape
  dsimp only
  cases hd : s.depth? name with
  | none => rfl
  | some d =>
    cases reads with
    | false => rfl
    | true =>
      refine List.ext_getElem? fun i => ?_
      rw [List.getElem?_map, List.getElem?_map, List.getElem?_modify]
      split
      · rename_i hi
        subst hi
        obtain ⟨l, b, hl, hb⟩ := Shape.depth?_eq_some (s.depth?_eq name ▸ hd)
        cases hlayer : s.layers[d]? with
        | none => rfl
        | some m =>
          obtain rfl : m.standing = l := by simpa [shape, hlayer] using hl
          obtain rfl : b = true := by
            cases b with
            | false => exact absurd hb (h rfl d _ hd hl)
            | true => rfl
          -- a name that is marked as read had a value before
          have hmark := Layer.standing_mark hb (by decide : Status.read ≠ .declared)
          rw [← hb, Function.update_eq_self] at hmark
          exact congrArg some hmark
      · simp

lemma isWaiting_iff {name : String} :
    s.isWaiting name ↔ ∃ l, s.shape[0]? = some l ∧ l name = some false := by
  unfold isWaiting shape
  cases s.layers with
  | nil => simp
  | cons l ls => simp [Layer.standing_eq_false]

/-! ### Expressions -/

lemma shape_readName (id : NodeId) (name : Token) (hs : s.shape.Apt)
    (h : (s.readName id name).Clean) :
    (s.readName id name).shape = s.shape ∧ ∀ d l, s.shape.depth? name.lexeme = some d →
      s.shape[d]? = some l → l name.lexeme = some true := by
  -- a name that waits would be complained of
  have hwait : s.isWaiting name.lexeme = false := by
    by_contra hw
    rw [Bool.not_eq_false] at hw
    rw [readName, if_pos hw] at h
    exact absurd ((leads_refer ..).clean h) not_clean_complain
  have hfound : ∀ d l, s.depth? name.lexeme = some d → s.shape[d]? = some l →
      l name.lexeme ≠ some false := by
    intro d l _ hl hfalse
    obtain ⟨rfl, -⟩ := hs d l hl _ hfalse
    rw [isWaiting_iff.mpr ⟨l, hl, hfalse⟩] at hwait
    exact nomatch hwait
  rw [readName, hwait]
  refine ⟨shape_refer s id name.lexeme true fun _ => hfound, fun d l hd hl => ?_⟩
  obtain ⟨m, b, hm, hb⟩ := Shape.depth?_eq_some hd
  obtain rfl : m = l := Option.some.inj (hm.symm.trans hl)
  cases b with
  | true => exact hb
  | false => exact absurd hb (hfound d m (s.depth?_eq _ ▸ hd) hm)

lemma Apt.not_waiting_this {S : Shape} (hs : S.Apt) {d : ℕ} {l : Standing} (hl : S[d]? = some l) :
    l "this" ≠ some false :=
  fun h => (hs d l hl _ h).2 rfl

lemma shape_note {e : Expr} (he : e.Orderly) (hs : s.shape.Apt) (h : (s.note ctx e).Clean) :
    (s.note ctx e).shape = s.shape := by
  cases e with
  | reference id name => exact (shape_readName id name hs h).1
  | assign id name value => exact shape_refer s id name.lexeme false nofun
  | this id keyword =>
    have hk : keyword.lexeme = "this" := by
      obtain ⟨-, hthis⟩ := he
      exact hthis keyword rfl
    rw [note] at h ⊢
    split
    · refine shape_refer s id keyword.lexeme true fun _ d l _ hl => ?_
      rw [hk]
      exact Apt.not_waiting_this hs hl
    · rename_i hc
      rw [if_neg hc] at h
      exact absurd h not_clean_complain
  | _ => rfl

lemma shape_exprs {es : List Expr}
    (ih : ∀ e ∈ es, ∀ s, s.shape.Apt → (expr ctx e s).Clean → (expr ctx e s).shape = s.shape) :
    ∀ s, s.shape.Apt → (exprs ctx es s).Clean → (exprs ctx es s).shape = s.shape := by
  induction es with
  | nil => exact fun _ _ _ => rfl
  | cons e es ihes =>
    intro s hs h
    have hrest : ∀ e ∈ es, ∀ s, Leads e.ids s (expr ctx e s) := fun e _ => leads_expr ctx e
    have hclean : (expr ctx e s).Clean := (leads_exprs ctx es hrest _).clean h
    have he := ih e (List.mem_cons_self ..) s hs hclean
    rw [exprs, ihes (fun e he => ih e (List.mem_cons_of_mem _ he)) _ (he ▸ hs) h, he]

theorem shape_expr {e : Expr} (he : e.Orderly) :
    ∀ s : Survey, s.shape.Apt → (expr ctx e s).Clean → (expr ctx e s).shape = s.shape := by
  induction he with
  | @intro e hparts hthis ih =>
    intro s hs h
    rw [expr_eq] at h ⊢
    have hclean := (leads_note ctx e _).clean h
    have hs' := shape_exprs ih s hs hclean
    rw [shape_note (.intro hparts hthis) (hs' ▸ hs) h, hs']

end Survey

/-! ### Statements -/

namespace Shape

/-- What is known after a statement. -/
def after (S : Shape) (d : Stmt) : Shape :=
  match d.declared? with
  | some name => S.put name.lexeme true
  | none => S

/-- What is known after the parameters of a function. -/
def afterParams (S : Shape) (params : List Token) : Shape :=
  params.foldl (fun S p => S.put p.lexeme true) S

variable {S : Shape} {d : Stmt}

lemma after_of_declared?_eq_none (h : d.declared? = none) : S.after d = S := by
  rw [after, h]

lemma Settled.after (h : S.Settled) (d : Stmt) : (S.after d).Settled := by
  unfold Shape.after
  split
  · exact h.put _
  · exact h

lemma Settled.afterParams (h : S.Settled) (params : List Token) :
    (S.afterParams params).Settled := by
  induction params generalizing S with
  | nil => exact h
  | cons p ps ih => exact ih (h.put _)

lemma Settled.cons {l : Standing} (h : S.Settled) (hl : ∀ name, l name ≠ some false) :
    Settled (l :: S) :=
  List.forall_mem_cons.mpr ⟨hl, h⟩

@[simp] lemma tail_after (S : Shape) (d : Stmt) : (S.after d).tail = S.tail := by
  unfold after
  split
  · exact tail_put ..
  · rfl

lemma tail_foldl_after (body : List Stmt) (S : Shape) : (body.foldl after S).tail = S.tail := by
  induction body generalizing S with
  | nil => rfl
  | cons d ds ih => exact (ih _).trans (tail_after ..)

lemma tail_afterParams (params : List Token) (S : Shape) :
    (S.afterParams params).tail = S.tail := by
  induction params generalizing S with
  | nil => rfl
  | cons p ps ih => exact (ih _).trans (tail_put ..)

lemma afterParams_cons (l : Standing) (S : Shape) (params : List Token) :
    afterParams (l :: S) params =
      (fun name => if name ∈ params.map (·.lexeme) then some true else l name) :: S := by
  induction params generalizing l with
  | nil => simp [afterParams]
  | cons p ps ih =>
    refine (ih (Function.update l p.lexeme (some true))).trans ?_
    congr 1
    funext name
    by_cases hp : name = p.lexeme <;> by_cases hps : name ∈ ps.map (·.lexeme) <;> simp [hp, hps]

end Shape

namespace Survey

lemma shape_returnPlace (s : Survey) (ctx : Context) (keyword : Token) (value : Option Expr) :
    (s.returnPlace ctx keyword value).shape = s.shape := by
  unfold returnPlace
  split <;> dsimp only <;> split <;> rfl

lemma shape_params (params : List Token) (s : Survey)
    (h : (params.foldl (·.introduce ·) s).Clean) :
    (params.foldl (·.introduce ·) s).shape = s.shape.afterParams params := by
  induction params generalizing s with
  | nil => rfl
  | cons p ps ih =>
    have hclean : (s.introduce p).Clean := (leads_params ps _).clean h
    rw [List.foldl_cons, ih _ h, shape_introduce s p hclean]
    rfl

lemma Clean.of_closeLayer {s : Survey} (h : s.closeLayer.Clean) : s.Clean :=
  h.of_suffix (complaints_closeLayer s).suffix

lemma Clean.of_openLayer {s : Survey} {l : Layer} (h : (s.openLayer l).Clean) : s.Clean := h

lemma settled_openLayer {s : Survey} (hs : s.shape.Settled) {l : Layer}
    (hl : ∀ name, l.standing name ≠ some false) : (s.openLayer l).shape.Settled :=
  hs.cons hl

lemma standing_nil_ne (name : String) : Layer.standing [] name ≠ some false := nofun

lemma thisStanding_ne (name : String) : Layer.thisStanding name ≠ some false := by
  unfold Layer.thisStanding
  split <;> simp

lemma settled_ofThis {s : Survey} (hs : s.shape.Settled) (t : Token) :
    (s.openLayer (.ofThis t)).shape.Settled :=
  settled_openLayer hs (Layer.standing_ofThis t ▸ thisStanding_ne)

/-- What is known after the instance methods of a class. -/
lemma shape_afterMethods {ctx : Context} {name : Token} {ds : List FunctionDecl} {s : Survey}
    (ih : ∀ s : Survey, s.shape.Settled → (methodList ctx ds s).Clean →
      (methodList ctx ds s).shape = s.shape) (hs : s.shape.Settled)
    (h : (methodList ctx ds ((s.introduce name).openLayer (.ofThis name))).closeLayer.Clean) :
    (methodList ctx ds ((s.introduce name).openLayer (.ofThis name))).closeLayer.shape =
      s.shape.put name.lexeme true := by
  have hname := shape_introduce s name
    ((leads_methodList _ ds _).clean h.of_closeLayer).of_openLayer
  have hlist := ih _ (settled_ofThis (hname ▸ hs.put _) name) h.of_closeLayer
  rw [shape_closeLayer, hlist]
  exact hname

mutual

/-- A statement adds the name that it declares to what is known, and nothing else. -/
theorem shape_stmt (ctx : Context) : ∀ d : Stmt, d.Orderly → ∀ s : Survey, s.shape.Settled →
    (stmt ctx d s).Clean → (stmt ctx d s).shape = s.shape.after d
  | .expression e, hd, s, hs, h => shape_expr (hd.exprs e (by simp [Stmt.exprs])) s hs.apt h
  | .print e, hd, s, hs, h => shape_expr (hd.exprs e (by simp [Stmt.exprs])) s hs.apt h
  | .declare name none, _, s, _, h => shape_introduce s name h
  | .declare name (some e), hd, s, hs, h => by
    have he : (expr ctx e (s.declare name)).Clean := (@leads_define [] _ name).clean h
    have hdeclare := (shape_declare s name ((leads_expr ctx e _).clean he)).1
    have hexpr := shape_expr (hd.exprs e (by simp [Stmt.exprs])) (s.declare name)
      (hdeclare ▸ hs.apt_put hd.name) he
    exact shape_define _ name s.shape (hexpr.trans hdeclare)
  | .block body, hd, s, hs, h => by
    have hbody := shape_stmts ctx body (hd.inner) (s.openLayer [])
      (settled_openLayer hs standing_nil_ne) h.of_closeLayer
    rw [stmt, shape_closeLayer, hbody, Shape.tail_foldl_after]
    rfl
  | .branch c t none, hd, s, hs, h => by
    have hc := shape_expr (hd.exprs c (by simp [Stmt.exprs])) s hs.apt
      ((leads_stmt ctx t _).clean h)
    have ht := shape_stmt ctx t (hd.branches t (by simp [Stmt.branches])) _ (hc ▸ hs) h
    rw [stmt, ht, hc,
      Shape.after_of_declared?_eq_none (hd.declared?_branches t (by simp [Stmt.branches]))]
    rfl
  | .branch c t (some e), hd, s, hs, h => by
    have ht : (stmt ctx t (expr ctx c s)).Clean := (leads_stmt ctx e _).clean h
    have hc := shape_expr (hd.exprs c (by simp [Stmt.exprs])) s hs.apt
      ((leads_stmt ctx t _).clean ht)
    have ht' := shape_stmt ctx t (hd.branches t (by simp [Stmt.branches])) _ (hc ▸ hs) ht
    rw [hc,
      Shape.after_of_declared?_eq_none (hd.declared?_branches t (by simp [Stmt.branches]))] at ht'
    have he := shape_stmt ctx e (hd.branches e (by simp [Stmt.branches])) _ (ht' ▸ hs) h
    rw [stmt, he, ht',
      Shape.after_of_declared?_eq_none (hd.declared?_branches e (by simp [Stmt.branches]))]
    rfl
  | .loop c body, hd, s, hs, h => by
    have hc := shape_expr (hd.exprs c (by simp [Stmt.exprs])) s hs.apt
      ((leads_stmt ctx body _).clean h)
    have hb := shape_stmt ctx body (hd.branches body (by simp [Stmt.branches])) _ (hc ▸ hs) h
    rw [stmt, hb, hc,
      Shape.after_of_declared?_eq_none (hd.declared?_branches body (by simp [Stmt.branches]))]
    rfl
  | .breakLoop _, _, _, _, _ => rfl
  | .function d, hd, s, hs, h => by
    have hname := shape_introduce s d.name ((leads_function ctx .function d _).clean h)
    have hbody := shape_function ctx .function d hd.inner _ (hname ▸ hs.put _) h
    exact hbody.trans hname
  | .returnFrom keyword none, _, s, _, _ => shape_returnPlace s ctx keyword none
  | .returnFrom keyword (some e), hd, s, hs, h => by
    have hplace := shape_returnPlace s ctx keyword (some e)
    have he := shape_expr (hd.exprs e (by simp [Stmt.exprs])) _ (hplace.symm ▸ hs.apt) h
    exact he.trans hplace
  | .classDecl name methods statics, hd, s, hs, h => by
    have hmethods : ∀ m ∈ methods, ∀ b ∈ m.body, b.Orderly :=
      fun m hm b hb => hd.inner b (by
        simp only [Stmt.inner, List.mem_flatMap, List.mem_append]
        exact ⟨m, .inl hm, hb⟩)
    have hstatics : ∀ m ∈ statics, ∀ b ∈ m.body, b.Orderly :=
      fun m hm b hb => hd.inner b (by
        simp only [Stmt.inner, List.mem_flatMap, List.mem_append]
        exact ⟨m, .inr hm, hb⟩)
    simp only [stmt] at h ⊢
    split
    · rename_i hempty
      rw [if_pos hempty] at h
      exact shape_afterMethods (shape_methodList _ methods hmethods) hs h
    · rename_i hempty
      rw [if_neg hempty] at h
      have hm := shape_afterMethods (shape_methodList _ methods hmethods) hs
        ((leads_staticList _ statics _).clean h.of_closeLayer).of_openLayer
      have hlist := shape_staticList _ statics hstatics _
        (settled_ofThis (hm ▸ hs.put _) name) h.of_closeLayer
      rw [shape_closeLayer, hlist]
      exact hm

theorem shape_stmts (ctx : Context) : ∀ body : List Stmt, (∀ d ∈ body, d.Orderly) →
    ∀ s : Survey, s.shape.Settled → (stmts ctx body s).Clean →
      (stmts ctx body s).shape = body.foldl Shape.after s.shape
  | [], _, _, _, _ => rfl
  | d :: ds, hbody, s, hs, h => by
    have hd := shape_stmt ctx d (hbody d (List.mem_cons_self ..)) s hs
      ((leads_stmts ctx ds _).clean h)
    have hds := shape_stmts ctx ds (fun d hd => hbody d (List.mem_cons_of_mem _ hd)) _
      (hd ▸ hs.after d) h
    rw [stmts, hds, hd]
    rfl

theorem shape_function (ctx : Context) (body : Body) : ∀ d : FunctionDecl,
    (∀ b ∈ d.body, b.Orderly) → ∀ s : Survey, s.shape.Settled → (function ctx body d s).Clean →
      (function ctx body d s).shape = s.shape
  | .mk _ params code, hd, s, hs, h => by
    have hparams := shape_params (params.getD []) (s.openLayer [])
      ((leads_stmts _ code _).clean h.of_closeLayer)
    have hsettled := (settled_openLayer hs standing_nil_ne).afterParams (params.getD [])
    have hcode := shape_stmts { ctx with body } code hd _ (hparams ▸ hsettled) h.of_closeLayer
    rw [function, shape_closeLayer, hcode, Shape.tail_foldl_after, hparams, Shape.tail_afterParams]
    rfl

theorem shape_methodList (ctx : Context) : ∀ ds : List FunctionDecl,
    (∀ d ∈ ds, ∀ b ∈ d.body, b.Orderly) → ∀ s : Survey, s.shape.Settled →
      (methodList ctx ds s).Clean → (methodList ctx ds s).shape = s.shape
  | [], _, _, _, _ => rfl
  | d :: ds, hds, s, hs, h => by
    have hd := shape_function ctx (methodBody d) d (hds d (List.mem_cons_self ..)) s hs
      ((leads_methodList ctx ds _).clean h)
    have hrest := shape_methodList ctx ds (fun d hd => hds d (List.mem_cons_of_mem _ hd)) _
      (hd ▸ hs) h
    exact hrest.trans hd

theorem shape_staticList (ctx : Context) : ∀ ds : List FunctionDecl,
    (∀ d ∈ ds, ∀ b ∈ d.body, b.Orderly) → ∀ s : Survey, s.shape.Settled →
      (staticList ctx ds s).Clean → (staticList ctx ds s).shape = s.shape
  | [], _, _, _, _ => rfl
  | d :: ds, hds, s, hs, h => by
    have hd := shape_function ctx .method d (hds d (List.mem_cons_self ..)) s hs
      ((leads_staticList ctx ds _).clean h)
    have hrest := shape_staticList ctx ds (fun d hd => hds d (List.mem_cons_of_mem _ hd)) _
      (hd ▸ hs) h
    exact hrest.trans hd

end

end Survey

end Lox.Scope
