import Lox.Proofs.Scope.Naming
import Lox.Proofs.Scope.Tracking

/-!
What is wrong with the locals of an input, told from its tree.

A survey complains of a local where its name stands twice, where its own value reads it, and at the
end of its scope if it was not read till then. Each of these can be told of every room by itself,
from the places in it.
-/

namespace Lox.Scope

open Enclosure Site

/-- The reads of a variable in its own value. -/
def ownReads (t : Token) (e : Expr) : List Token := e.reads.filter (·.lexeme = t.lexeme)

/-- A complaint about the value of a local is made once, at the first read of the local there. -/
def initialComplaints (p : Token × Expr) : List Complaint :=
  ((ownReads p.1 p.2).take 1).map (about .readInOwnInitializer)

/-- What is wrong with the locals of a room. -/
noncomputable def Room.complaints (r : Room) : List Complaint :=
  r.again.map (about .alreadyDeclared) ++ r.initials.flatMap initialComplaints ++
    r.unread.map (about .neverRead)

/-- A place where names are read, each in the scope of some height. -/
def ReadIn (p : Site) (h : ℕ) (name : String) : Prop := p.Somewhere (ReadsFrom h name)

namespace Survey

section
variable {xs : List Enclosure} {s s' s'' : Survey} {h : ℕ} {name : String} {ctx : Context}
  {P Q : ℕ → String → Prop} {cs ds : List Complaint} {t : Token} {e : Expr} {d : Stmt}

/-! ### Expressions -/

lemma bound_readsOf {es : List Expr} :
    Bound xs (Expr.readsOf es) h name ↔ ∃ e ∈ es, Bound xs e.reads h name := by
  induction es with
  | nil => simp [Expr.readsOf, not_bound_nil]
  | cons e es ih => simp [Expr.readsOf, bound_append, ih]

/-- What is read in an expression, from the variables in it. -/
lemma readIn_expr (e : Expr) : ReadIn ⟨.expr e, xs⟩ h name ↔ Bound xs e.reads h name := by
  induction e using Expr.induction_parts with
  | h e ih =>
    have hown : ReadsFrom h name ⟨.expr e, xs⟩ ↔ Bound xs e.ownRead h name := by
      cases e with
      | reference id t => simp [ReadsFrom, Bound, Expr.ownRead]
      | _ => simp [ReadsFrom, Bound, Expr.ownRead]
    rw [ReadIn, somewhere_expr, hown, Expr.reads_eq, bound_append, bound_readsOf]
    exact or_congr_left (exists_congr fun p => and_congr_right (ih p))

lemma modify_mark_this {ls : List Layer} (hls : ∀ l ∈ ls, l.Neat) (d : ℕ) :
    ls.modify d (·.mark "this" .read) = ls := by
  induction ls generalizing d with
  | nil => cases d <;> rfl
  | cons l ls ih =>
    obtain ⟨hl, hls⟩ := List.forall_mem_cons.mp hls
    cases d with
    | zero => exact congrArg (· :: ls) hl.mark_this
    | succ d => exact congrArg (l :: ·) (ih hls d)

lemma tracks_nothing (hl : s'.layers = s.layers)
    (hc : s'.complaints.filter ofLocal = s.complaints.filter ofLocal) :
    Tracks xs (Bound xs []) [] (warnings s []) s s' :=
  (tracks_of_layers hl hc).congr (fun _ _ => (iff_false_intro not_bound_nil).symm) rfl (.refl _)

/-- Only variables are read, not `this`. -/
lemma tracks_note (hs : Ready xs s) (he : ∀ keyword ∈ e.thisWord?, keyword.lexeme = "this") :
    Tracks xs (Bound xs e.ownRead) [] (warnings s e.ownRead) s (s.note ctx e) := by
  cases e with
  | reference id t => exact tracks_readName hs id t
  | assign id t value =>
    refine tracks_nothing ?_ rfl
    rw [note]
    unfold refer
    cases s.depth? t.lexeme <;> rfl
  | this id keyword =>
    rw [note]
    split
    · refine tracks_nothing ?_ rfl
      rw [he keyword rfl]
      unfold refer
      dsimp only
      split
      · exact modify_mark_this hs.neat _
      · rfl
    · exact tracks_nothing rfl rfl
  | _ => exact tracks_nothing rfl rfl

lemma tracks_exprs {es : List Expr} (hes : ∀ e ∈ es, ∀ s, Ready xs s →
      Tracks xs (Bound xs e.reads) [] (warnings s e.reads) s (expr ctx e s)) (hs : Ready xs s) :
    Tracks xs (Bound xs (Expr.readsOf es)) [] (warnings s (Expr.readsOf es)) s
      (exprs ctx es s) := by
  induction es generalizing s with
  | nil => exact tracks_nothing rfl rfl
  | cons e es ih =>
    obtain ⟨he, hes⟩ := List.forall_mem_cons.mp hes
    have hfirst := he s hs
    exact hfirst.reads_append hs (ih hes (hs.after_reads hfirst))

theorem tracks_expr (ctx : Context) (he : e.Orderly) (hs : Ready xs s) :
    Tracks xs (Bound xs e.reads) [] (warnings s e.reads) s (expr ctx e s) := by
  induction e using Expr.induction_parts generalizing s with
  | h e ih =>
    obtain ⟨hparts, hthis⟩ := he
    rw [expr_eq, Expr.reads_eq]
    have hfirst := tracks_exprs (fun p hp s hs => ih p hp (hparts p hp) hs) hs
    exact hfirst.reads_append hs (tracks_note (hs.after_reads hfirst) hthis)

/-! ### Values -/

lemma Settled.not_waiting (hs : Settled xs s) (name : String) : s.isWaiting name = false := by
  have hsettled := hs.settled
  unfold isWaiting
  cases hl : s.layers with
  | nil => rfl
  | cons l ls =>
    rw [hl] at hsettled
    refine decide_eq_false fun hname => ?_
    obtain ⟨v, hv, hstatus⟩ := Option.map_eq_some_iff.mp hname
    exact hsettled l (List.mem_cons_self ..) _ (Table.mem_of_get? hv) hstatus

lemma warnings_eq_nil (hw : ∀ name, s.isWaiting name = false) (ts : List Token) :
    warnings s ts = [] := by
  simp [warnings, hw]

lemma tracks_value (hs : Settled xs s) (ctx : Context) (he : e.Orderly) :
    Tracks xs (ReadIn ⟨.expr e, xs⟩) [] [] s (expr ctx e s) :=
  (tracks_expr ctx he hs.toReady).congr (fun _ _ => (readIn_expr e).symm) rfl
    (.of_eq (warnings_eq_nil hs.not_waiting _))

/-- The complaints about the values that statements give the names they declare. -/
def initialsAt (xs : List Enclosure) (ds : List Stmt) : List Complaint :=
  (tracked xs (initialized · ds)).flatMap initialComplaints

/-- A local that is new waits for its value, and no other one does. -/
lemma isWaiting_declare (hs : Settled xs s) {l : Layer} {ls : List Layer} (hl : s.layers = l :: ls)
    (ht : ¬l.contains t.lexeme) (name : String) :
    (s.declare t).isWaiting name = decide (name = t.lexeme) := by
  have hbefore := hs.not_waiting name
  rw [declare_of_not_contains hl ht]
  unfold isWaiting at hbefore ⊢
  rw [hl] at hbefore
  dsimp only at hbefore ⊢
  unfold Layer.status? at hbefore ⊢
  rw [Layer.declare, Table.get?_insert]
  by_cases hname : t.lexeme = name
  · simp [hname]
  · rw [if_neg hname, hbefore]
    exact (decide_eq_false (Ne.symm hname)).symm

lemma warnings_declare (hs : Settled xs s) (t : Token) (e : Expr) :
    warnings (s.declare t) e.reads = initialsAt xs [.declare t (some e)] := by
  have hcovers := hs.covers
  have hnone := warnings_eq_nil hs.not_waiting e.reads
  cases hl : s.layers with
  | nil =>
    rw [hl] at hcovers
    cases hcovers
    rw [declare_of_nil hl, hnone]
    rfl
  | cons l ls =>
    rw [hl] at hcovers
    cases hcovers with
    | @cons _ x _ xs hx _ =>
      by_cases hc : l.contains t.lexeme
      · have hseen := (hx t.lexeme).mp hc
        have hsame : warnings (s.declare t) e.reads = warnings s e.reads := by
          rw [declare_of_contains hl hc]
          rfl
        simp [hsame, hnone, initialsAt, tracked, initialized, hseen]
      · have hseen := (hx t.lexeme).not.mp hc
        simp only [warnings, isWaiting_declare hs hl hc, filter_fresh, initialsAt, tracked,
          initialized, hseen, if_false, List.append_nil, List.flatMap_singleton, initialComplaints,
          ownReads]

/-- A local counts in its own value. -/
lemma tracks_initial (hs : Settled xs s) (ctx : Context) (he : e.Orderly)
    (ht : t.lexeme ≠ "this") :
    Tracks xs (ReadIn ⟨.expr e, declaring xs [t.lexeme]⟩) [t]
      (repeats xs [t] ++ initialsAt xs [.declare t (some e)]) s
      ((expr ctx e (s.declare t)).define t) := by
  have hvalue := tracks_declare hs (tracks_expr ctx he (hs.toReady.declare ht))
  rw [warnings_declare hs] at hvalue
  exact hvalue.congr (fun _ _ => (readIn_expr e).symm) rfl (.refl _)

/-! ### Rooms -/

lemma unread_asLocal (ts : List Token) (P : String → Prop) :
    (Layer.reading P (ts.map asLocal)).unread.Perm
      (open Classical in ts.filter fun t => ¬P t.lexeme) := by
  refine (Layer.unread_perm _).trans (.of_eq ?_)
  rw [Layer.reading, List.map_map]
  induction ts with
  | nil => rfl
  | cons t ts ih => by_cases hP : P t.lexeme <;> simpa [asLocal, hP] using ih

lemma Settled.openLayer (hs : Settled xs s) (o : Opener) :
    Settled (⟨o, []⟩ :: xs) (s.openLayer []) where
  covers := covers_openLayer hs.covers o
  neat := List.forall_mem_cons.mpr ⟨⟨List.nodup_nil, nofun⟩, hs.neat⟩
  settled := List.forall_mem_cons.mpr ⟨nofun, hs.settled⟩

lemma Settled.openThis (hs : Settled xs s) (o : Opener) (name : Token) :
    Settled (⟨o, ["this"]⟩ :: xs) (s.openLayer (.ofThis name)) where
  covers := covers_openThis hs.covers o name
  neat := List.forall_mem_cons.mpr ⟨⟨List.nodup_singleton _, by simp [Layer.ofThis]⟩, hs.neat⟩
  settled := List.forall_mem_cons.mpr ⟨by simp [Layer.ofThis], hs.settled⟩

/-- The names that statements declare in the scope they stand in. -/
abbrev declarations (ds : List Stmt) : List Token := ds.filterMap (·.declared?)

/-- What is wrong with the names that statements declare in the scope they stand in. -/
def faultsAt (xs : List Enclosure) (ds : List Stmt) : List Complaint :=
  repeats xs (declarations ds) ++ initialsAt xs ds

section
variable {r : Room} {f : Survey → Survey}

/-- The scope of a room is one further in than those around it. -/
lemma Settled.readIn_site (hs : Settled r.around s) :
    ReadIn r.site (s.layers.length + 1) = r.Reads := by
  funext name
  rw [hs.covers.length_eq]
  rfl

/-- A room is opened, and its parameters and its body are surveyed. -/
lemma tracks_opened (hs : Settled r.around s) (hparams : ∀ p ∈ r.params, p.lexeme ≠ "this")
    (hbody : ∀ s, Settled r.site.scopes s → Tracks r.site.scopes (ReadIn r.site)
      (declarations r.body) cs s (f s)) :
    Tracks (⟨r.opener, []⟩ :: r.around) (ReadIn r.site) r.declared
      (repeats (⟨r.opener, []⟩ :: r.around) r.params ++ cs) (s.openLayer [])
      (f (r.params.foldl (·.introduce ·) (s.openLayer []))) := by
  have hopen := hs.openLayer r.opener
  have hfirst := tracks_params hopen hparams
  have hrest := hbody _ (hopen.after hfirst hparams)
  exact (hfirst.trans hopen.toReady rfl hrest).congr (fun _ _ => iff_of_eq (false_or _)) rfl
    (.refl _)

/-- Then it is closed. -/
lemma tracks_room (hs : Settled r.around s) (hparams : ∀ p ∈ r.params, p.lexeme ≠ "this")
    (hbody : ∀ s, Settled r.site.scopes s → Tracks r.site.scopes (ReadIn r.site)
      (declarations r.body) (faultsAt r.site.scopes r.body ++ cs) s (f s)) :
    Tracks r.around (ReadIn r.site) [] (r.complaints ++ cs) s
      (f (r.params.foldl (·.introduce ·) (s.openLayer []))).closeLayer := by
  refine (tracks_opened hs hparams hbody).closed.congr (fun _ _ => Iff.rfl) rfl ?_
  have hagain : repeats (⟨r.opener, []⟩ :: r.around) r.params ++
      repeats r.site.scopes (declarations r.body) = r.again.map (about .alreadyDeclared) :=
    (repeats_append (⟨r.opener, []⟩ :: r.around) r.params (declarations r.body)).symm
  have hunread : ((Layer.reading (ReadIn r.site (s.layers.length + 1))
      ((fresh [] r.declared).map asLocal)).unread.map (about .neverRead)).Perm
      (r.unread.map (about .neverRead)) := by
    rw [hs.readIn_site]
    exact (unread_asLocal (fresh [] r.declared) r.Reads).map _
  refine (hunread.append_left _).trans ?_
  rw [Room.complaints, ← hagain, faultsAt]
  simp only [List.append_assoc]
  exact ((List.perm_append_comm.append_left _).append_left _).append_left _

end

/-- There is nothing to say about the names in a scope that is open around methods. -/
lemma Tracks.closed_this {o : Opener} {className : Token}
    (h : Tracks (⟨o, ["this"]⟩ :: xs) P [] cs (s.openLayer (.ofThis className)) s') :
    Tracks xs P [] cs s s'.closeLayer := by
  have hunread : (Layer.reading (P (s.layers.length + 1)) (.ofThis className)).unread = [] := by
    by_cases hP : P (s.layers.length + 1) "this" <;>
      simp [Layer.reading, Layer.ofThis, Layer.unread, hP]
  refine h.closed.congr (fun _ _ => Iff.rfl) rfl (.of_eq ?_)
  rw [fresh, List.map_nil, List.append_nil, hunread, List.map_nil, List.append_nil]

/-! ### Statements -/

lemma readIn_stmt (d : Stmt) :
    ReadIn ⟨.stmt d, xs⟩ h name ↔ ∃ q ∈ held xs d, ReadIn q h name :=
  somewhere_stmt.trans (or_iff_right (by simp [ReadsFrom]))

lemma not_readIn_stmts_nil : ¬ReadIn ⟨.stmts [], xs⟩ h name :=
  somewhere_stmts_nil.not.mpr (by simp [ReadsFrom])

lemma readIn_stmts_cons {ds : List Stmt} : ReadIn ⟨.stmts (d :: ds), xs⟩ h name ↔
    ReadIn ⟨.stmt d, xs⟩ h name ∨ ReadIn ⟨.stmts ds, declaring xs (declaredIn [d])⟩ h name :=
  somewhere_stmts_cons fun _ _ => by simp [ReadsFrom]

lemma readIn_function {body : Body} {d : FunctionDecl} :
    ReadIn ⟨.function body d, xs⟩ h name ↔
      ReadIn ⟨.stmts d.body, ⟨.function, d.paramList.map (·.lexeme)⟩ :: xs⟩ h name :=
  somewhere_function.trans (or_iff_right (by simp [ReadsFrom]))

lemma faultsAt_cons (xs : List Enclosure) (d : Stmt) (ds : List Stmt) :
    (faultsAt xs [d] ++ faultsAt (declaring xs (declaredIn [d])) ds).Perm
      (faultsAt xs (d :: ds)) := by
  have hrepeats : repeats xs (declarations (d :: ds)) = repeats xs (declarations [d]) ++
      repeats (declaring xs (declaredIn [d])) (declarations ds) := by
    rw [← List.singleton_append, declarations, List.filterMap_append, repeats_append]
    rfl
  have hinitials : initialsAt xs (d :: ds) =
      initialsAt xs [d] ++ initialsAt (declaring xs (declaredIn [d])) ds := by
    cases xs with
    | nil => rfl
    | cons x xs => simp [initialsAt, tracked, initialized, declaring]
  rw [faultsAt, faultsAt, faultsAt, hrepeats, hinitials]
  simp only [List.append_assoc]
  exact (List.perm_append_comm_assoc ..).append_left _

lemma tracks_returnPlace (xs : List Enclosure) (s : Survey) (ctx : Context) (keyword : Token)
    (value : Option Expr) :
    Tracks xs (fun _ _ => False) [] [] s (s.returnPlace ctx keyword value) := by
  refine tracks_of_layers (returnPlace_eq s ctx keyword value).1 ?_
  unfold returnPlace
  split <;> dsimp only <;> split <;> rfl

lemma declarations_undeclared (hd : d.declared? = none) : declarations [d] = [] := by
  simp [declarations, hd]

lemma faultsAt_undeclared (hd : d.declared? = none) (xs : List Enclosure) :
    faultsAt xs [d] = [] := by
  rw [faultsAt, declarations_undeclared hd, repeats_nil, List.nil_append]
  cases d <;> first | (cases xs <;> rfl) | exact nomatch hd

/-- A statement that declares nothing. -/
lemma Tracks.of_undeclared (h : Tracks xs P [] cs s s') (hd : d.declared? = none)
    (hP : ∀ h name, P h name ↔ ∃ q ∈ held xs d, ReadIn q h name)
    (hcs : cs = (roomsOfStmt xs d).flatMap Room.complaints) :
    Tracks xs (ReadIn ⟨.stmt d, xs⟩) (declarations [d])
      (faultsAt xs [d] ++ (roomsOfStmt xs d).flatMap Room.complaints) s s' := by
  rw [faultsAt_undeclared hd, declarations_undeclared hd, List.nil_append, ← hcs]
  exact h.congr (fun h name => (hP h name).trans (readIn_stmt d).symm) rfl (.refl _)

lemma Tracks.undeclared (h : Tracks xs P (declarations [d]) (faultsAt xs [d] ++ cs) s s')
    (hd : d.declared? = none) : Tracks xs P [] cs s s' := by
  rwa [faultsAt_undeclared hd, declarations_undeclared hd] at h

end

mutual

theorem tracks_stmt {xs : List Enclosure} (ctx : Context) : ∀ d : Stmt, d.Orderly → d.Named →
    ∀ s, Settled xs s → Tracks xs (ReadIn ⟨.stmt d, xs⟩) (declarations [d])
      (faultsAt xs [d] ++ (roomsOfStmt xs d).flatMap Room.complaints) s (stmt ctx d s)
  | .expression e, ho, _, s, hs =>
    have he := tracks_value hs ctx (ho.exprs e (by simp [Stmt.exprs]))
    he.of_undeclared rfl (fun h name => by simp [held]) rfl
  | .print e, ho, _, s, hs =>
    have he := tracks_value hs ctx (ho.exprs e (by simp [Stmt.exprs]))
    he.of_undeclared rfl (fun h name => by simp [held]) rfl
  | .declare name none, _, _, s, hs => by
    refine (tracks_introduce hs name).congr (fun h n => ?_) rfl (.of_eq ?_)
    · simp [readIn_stmt, held]
    · cases xs <;> simp [faultsAt, roomsOfStmt, declarations, Stmt.declared?, initialsAt, tracked,
        initialized]
  | .declare name (some e), ho, _, s, hs => by
    have he := tracks_initial hs ctx (ho.exprs e (by simp [Stmt.exprs])) ho.name
    refine he.congr (fun h n => ?_) rfl (.of_eq ?_)
    · simp [readIn_stmt, held]
    · exact (List.append_nil _).symm
  | .block body, ho, hn, s, hs => by
    have hbody := tracks_room (r := ⟨.block, [], body, xs⟩) (f := stmts ctx body) hs nofun
      fun s hs => tracks_stmts ctx body ho.inner hn.inner s hs
    refine hbody.of_undeclared rfl (fun h name => by simp [held]; rfl) rfl
  | .branch c t none, ho, hn, s, hs => by
    have hc := tracks_value hs ctx (ho.exprs c (by simp [Stmt.exprs]))
    have hb : t ∈ (Stmt.branch c t none).branches := by simp [Stmt.branches]
    have ht := (tracks_stmt ctx t (ho.branches t hb) (hn.branches t hb) _
      (hs.after_reads hc)).undeclared (ho.declared?_branches t hb)
    refine (hc.trans hs.toReady (declaring_nil xs).symm ht).of_undeclared rfl (fun h name => ?_) rfl
    simp [held]
  | .branch c t (some e), ho, hn, s, hs => by
    have hc := tracks_value hs ctx (ho.exprs c (by simp [Stmt.exprs]))
    have hb : t ∈ (Stmt.branch c t (some e)).branches := by simp [Stmt.branches]
    have hb' : e ∈ (Stmt.branch c t (some e)).branches := by simp [Stmt.branches]
    have hs' := hs.after_reads hc
    have ht := (tracks_stmt ctx t (ho.branches t hb) (hn.branches t hb) _ hs').undeclared
      (ho.declared?_branches t hb)
    have he := (tracks_stmt ctx e (ho.branches e hb') (hn.branches e hb') _
      (hs'.after_reads ht)).undeclared (ho.declared?_branches e hb')
    have hrest := ht.trans hs'.toReady (declaring_nil xs).symm he
    refine (hc.trans hs.toReady (declaring_nil xs).symm hrest).of_undeclared rfl
      (fun h name => ?_) ?_
    · simp [held]
    · exact List.flatMap_append.symm
  | .loop c body, ho, hn, s, hs => by
    have hc := tracks_value hs ctx (ho.exprs c (by simp [Stmt.exprs]))
    have hb : body ∈ (Stmt.loop c body).branches := by simp [Stmt.branches]
    have ht := (tracks_stmt ctx body (ho.branches body hb) (hn.branches body hb) _
      (hs.after_reads hc)).undeclared (ho.declared?_branches body hb)
    refine (hc.trans hs.toReady (declaring_nil xs).symm ht).of_undeclared rfl (fun h name => ?_) rfl
    simp [held]
  | .breakLoop keyword, _, _, s, hs =>
    (tracks_of_layers rfl rfl).of_undeclared rfl (fun h name => by simp [held]) rfl
  | .function d, ho, hn, s, hs => by
    have hname := tracks_introduce hs d.name
    have hthis : ∀ t ∈ [d.name], t.lexeme ≠ "this" :=
      List.forall_mem_singleton.mpr (hn.declared rfl)
    have hbody := tracks_function ctx .function d ho.inner hn.function _ (hs.after hname hthis)
    refine (hname.trans hs.toReady rfl hbody).congr (fun h n => ?_) rfl (.of_eq ?_)
    · simp [readIn_stmt, held]
    · cases xs <;> simp [faultsAt, roomsOfStmt, declarations, Stmt.declared?, initialsAt, tracked,
        initialized]
  | .returnFrom keyword none, _, _, s, _ =>
    (tracks_returnPlace xs s ctx keyword none).of_undeclared rfl (fun h name => by simp [held]) rfl
  | .returnFrom keyword (some e), ho, _, s, hs => by
    have hplace := tracks_returnPlace xs s ctx keyword (some e)
    have he := tracks_value (hs.after_reads hplace) ctx (ho.exprs e (by simp [Stmt.exprs]))
    refine (hplace.trans hs.toReady (declaring_nil xs).symm he).of_undeclared rfl
      (fun h name => ?_) rfl
    simp [held]
  | .classDecl name methods statics, ho, hn, s, hs => by
    have hname := tracks_introduce hs name
    have hthis : ∀ t ∈ [name], t.lexeme ≠ "this" :=
      List.forall_mem_singleton.mpr (hn.declared rfl)
    have hinner : ∀ d ∈ methods ++ statics, ∀ b ∈ d.body, b.Orderly := fun d hd b hb =>
      ho.inner b (List.mem_flatMap.mpr ⟨d, hd, hb⟩)
    have hs' := hs.after hname hthis
    have hmethods := (tracks_methodList { ctx with inClass := true } methods
      (fun d hd => hinner d (List.mem_append_left _ hd))
      (fun d hd => hn.member (List.mem_append_left _ hd)) _
      (hs'.openThis .methods name)).closed_this
    have hfirst := hname.trans hs.toReady rfl hmethods
    have hfaults : faultsAt xs [.classDecl name methods statics] = repeats xs [name] := by
      cases xs <;> simp [faultsAt, declarations, Stmt.declared?, initialsAt, tracked, initialized]
    simp only [stmt]
    split
    · rename_i hempty
      obtain rfl := List.isEmpty_iff.mp hempty
      refine hfirst.congr (fun h n => ?_) rfl (.of_eq ?_)
      · simp [readIn_stmt, held]
      · simp [hfaults, roomsOfStmt, roomsOfFunctions]
    · have hstatics := (tracks_staticList { ctx with inClass := true } statics
        (fun d hd => hinner d (List.mem_append_right _ hd))
        (fun d hd => hn.member (List.mem_append_right _ hd)) _
        ((hs'.after_reads hmethods).openThis .statics name)).closed_this
      have hrest := hmethods.trans hs'.toReady (declaring_nil _).symm hstatics
      refine (hname.trans hs.toReady rfl hrest).congr (fun h n => ?_) rfl (.of_eq ?_)
      · simp [readIn_stmt, held, or_and_right, exists_or]
      · simp [hfaults, roomsOfStmt]

theorem tracks_stmts {xs : List Enclosure} (ctx : Context) : ∀ body : List Stmt,
    (∀ d ∈ body, d.Orderly) → (∀ d ∈ body, d.Named) → ∀ s, Settled xs s →
      Tracks xs (ReadIn ⟨.stmts body, xs⟩) (declarations body)
        (faultsAt xs body ++ (roomsOfStmts xs body).flatMap Room.complaints) s (stmts ctx body s)
  | [], _, _, s, hs => by
    have hfaults : faultsAt xs [] = [] := by cases xs <;> rfl
    have hsame : Tracks xs (fun _ _ => False) [] [] s s := tracks_of_layers rfl rfl
    refine hsame.congr (fun h n => (iff_false_intro not_readIn_stmts_nil).symm) rfl (.of_eq ?_)
    rw [hfaults]
    rfl
  | d :: ds, ho, hn, s, hs => by
    obtain ⟨hd, hds⟩ := List.forall_mem_cons.mp ho
    obtain ⟨hd', hds'⟩ := List.forall_mem_cons.mp hn
    have hfirst := tracks_stmt ctx d hd hd' s hs
    have hthis : ∀ t ∈ declarations [d], t.lexeme ≠ "this" := fun t ht => by
      obtain ⟨b, hb, hname⟩ := List.mem_filterMap.mp ht
      exact hd'.declared (List.mem_singleton.mp hb ▸ hname)
    have hrest := tracks_stmts ctx ds hds hds' _ (hs.after hfirst hthis)
    refine (hfirst.trans hs.toReady rfl hrest).congr (fun h n => readIn_stmts_cons.symm) ?_ ?_
    · rw [declarations, declarations, ← List.filterMap_append]
      rfl
    · refine List.Perm.trans ?_ ((faultsAt_cons xs d ds).append_right _)
      rw [roomsOfStmts, List.flatMap_append]
      simp only [List.append_assoc]
      exact (List.perm_append_comm_assoc ..).append_left _

theorem tracks_function {xs : List Enclosure} (ctx : Context) (body : Body) :
    ∀ d : FunctionDecl, (∀ b ∈ d.body, b.Orderly) → d.Named → ∀ s, Settled xs s →
      Tracks xs (ReadIn ⟨.function body d, xs⟩) []
        ((roomsOfFunction xs d).flatMap Room.complaints) s (function ctx body d s)
  | .mk name params code, ho, hn, s, hs => by
    have hbody := tracks_room (r := ⟨.function, params.getD [], code, xs⟩)
      (f := stmts { ctx with body } code) hs hn.params
      fun s hs => tracks_stmts { ctx with body } code ho hn.body s hs
    exact hbody.congr (fun h n => (readIn_function (d := .mk name params code)).symm) rfl (.refl _)

theorem tracks_methodList {xs : List Enclosure} (ctx : Context) : ∀ ds : List FunctionDecl,
    (∀ d ∈ ds, ∀ b ∈ d.body, b.Orderly) → (∀ d ∈ ds, d.Named) → ∀ s, Settled xs s →
      Tracks xs (fun h name => ∃ d ∈ ds, ReadIn ⟨.function (methodBody d) d, xs⟩ h name) []
        ((roomsOfFunctions xs ds).flatMap Room.complaints) s (methodList ctx ds s)
  | [], _, _, s, hs => (tracks_of_layers rfl rfl).congr (fun h n => by simp) rfl (.refl _)
  | d :: ds, ho, hn, s, hs => by
    obtain ⟨hd, hds⟩ := List.forall_mem_cons.mp ho
    obtain ⟨hd', hds'⟩ := List.forall_mem_cons.mp hn
    have hfirst := tracks_function ctx (methodBody d) d hd hd' s hs
    have hrest := tracks_methodList ctx ds hds hds' _ (hs.after_reads hfirst)
    refine (hfirst.trans hs.toReady (declaring_nil xs).symm hrest).congr (fun h n => by simp) rfl
      (.of_eq ?_)
    rw [roomsOfFunctions, List.flatMap_append]

theorem tracks_staticList {xs : List Enclosure} (ctx : Context) : ∀ ds : List FunctionDecl,
    (∀ d ∈ ds, ∀ b ∈ d.body, b.Orderly) → (∀ d ∈ ds, d.Named) → ∀ s, Settled xs s →
      Tracks xs (fun h name => ∃ d ∈ ds, ReadIn ⟨.function .method d, xs⟩ h name) []
        ((roomsOfFunctions xs ds).flatMap Room.complaints) s (staticList ctx ds s)
  | [], _, _, s, hs => (tracks_of_layers rfl rfl).congr (fun h n => by simp) rfl (.refl _)
  | d :: ds, ho, hn, s, hs => by
    obtain ⟨hd, hds⟩ := List.forall_mem_cons.mp ho
    obtain ⟨hd', hds'⟩ := List.forall_mem_cons.mp hn
    have hfirst := tracks_function ctx .method d hd hd' s hs
    have hrest := tracks_staticList ctx ds hds hds' _ (hs.after_reads hfirst)
    refine (hfirst.trans hs.toReady (declaring_nil xs).symm hrest).congr (fun h n => by simp) rfl
      (.of_eq ?_)
    rw [roomsOfFunctions, List.flatMap_append]

end

end Survey

end Lox.Scope
