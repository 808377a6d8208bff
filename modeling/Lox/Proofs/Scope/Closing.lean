import Mathlib.Data.List.Sort
import Lox.Proofs.Scope.Adding
import Lox.Proofs.Scope.LocalFaults
import Lox.Proofs.Scope.SourceOrder

/-!
The order in which unread locals are reported.

At the end of a scope its unread locals are put in order by their lines, and within a line by
spelling. The lines follow the source, so the locals of different lines are reported as they are
declared; those of one line need not be.
-/

namespace Lox.Scope

open Survey

/-! ### The order of names -/

namespace Layer

/-- The first name does not come after the second. -/
def InOrder (a b : Token) : Prop := ¬precedes b a

instance : DecidableRel InOrder := fun a b => inferInstanceAs (Decidable ¬precedes b a)

variable {a b c t : Token}

lemma precedes_iff : precedes a b ↔ a.line < b.line ∨ a.line = b.line ∧ a.lexeme < b.lexeme := by
  simp [precedes]

lemma inOrder_iff : InOrder a b ↔ a.line < b.line ∨ a.line = b.line ∧ a.lexeme ≤ b.lexeme := by
  rw [InOrder, precedes_iff, ← String.not_lt]
  constructor
  · intro h
    by_cases hline : a.line < b.line
    · exact .inl hline
    · have heq : a.line = b.line := by omega
      exact .inr ⟨heq, fun hlt => h (.inr ⟨heq.symm, hlt⟩)⟩
  · rintro (h | ⟨h, hle⟩) (h' | ⟨h', hlt⟩)
    · omega
    · omega
    · omega
    · exact hle hlt

lemma InOrder.line_le (h : InOrder a b) : a.line ≤ b.line := by
  rcases inOrder_iff.mp h with h | ⟨h, -⟩ <;> omega

instance : Std.Total InOrder where
  total a b := by
    rw [inOrder_iff, inOrder_iff]
    rcases lt_trichotomy a.line b.line with h | h | h
    · exact .inl (.inl h)
    · rcases String.le_total a.lexeme b.lexeme with hle | hle
      · exact .inl (.inr ⟨h, hle⟩)
      · exact .inr (.inr ⟨h.symm, hle⟩)
    · exact .inr (.inl h)

instance : IsTrans Token InOrder where
  trans a b c hab hbc := by
    rw [inOrder_iff] at hab hbc ⊢
    rcases hab with hab | ⟨hab, hab'⟩ <;> rcases hbc with hbc | ⟨hbc, hbc'⟩
    · exact .inl (hab.trans hbc)
    · exact .inl (hbc ▸ hab)
    · exact .inl (hab ▸ hbc)
    · exact .inr ⟨hab.trans hbc, String.le_trans hab' hbc'⟩

lemma InOrder.lexeme_eq (h : InOrder a b) (h' : InOrder b a) : a.lexeme = b.lexeme := by
  rcases inOrder_iff.mp h with h | ⟨h, hle⟩ <;> rcases inOrder_iff.mp h' with h' | ⟨h', hle'⟩
  · omega
  · omega
  · omega
  · exact String.le_antisymm hle hle'

lemma place_eq (t : Token) (ts : List Token) : place t ts = ts.orderedInsert InOrder t := by
  induction ts with
  | nil => rfl
  | cons u ts ih =>
    rw [place, List.orderedInsert_cons, ih]
    by_cases h : precedes u t
    · have hnot : ¬InOrder t u := not_not.mpr h
      rw [if_pos h, if_neg hnot]
    · have ht : InOrder t u := h
      rw [if_neg h, if_pos ht]

/-- The names that are never read are sorted. -/
lemma unread_eq (l : Layer) : l.unread =
    ((l.filter fun p => p.2.status = .defined).map fun p => p.2.name).insertionSort InOrder := by
  induction l with
  | nil => rfl
  | cons p l ih =>
    rw [unread_cons, List.filter_cons]
    by_cases h : p.2.status = .defined
    · simp only [h, if_true, decide_true, List.map_cons, List.insertionSort_cons]
      rw [place_eq, ih]
    · simpa [h] using ih

open Classical in
lemma unread_reading_asLocal (P : String → Prop) (ts : List Token) :
    (Layer.reading P (ts.map asLocal)).unread =
      (ts.filter fun t => ¬P t.lexeme).insertionSort InOrder := by
  rw [unread_eq]
  congr 1
  rw [Layer.reading, List.map_map]
  induction ts with
  | nil => rfl
  | cons t ts ih => by_cases hP : P t.lexeme <;> simpa [asLocal, hP] using ih

end Layer

/-! ### Rooms as they end -/

namespace Room

/-- The unread names of a room, as they are reported. -/
noncomputable def listed (r : Room) : List Token := r.unread.insertionSort Layer.InOrder

noncomputable def notices (r : Room) : List Complaint := r.listed.map (about .neverRead)

end Room

mutual

/-- The rooms inside a statement, in the order in which they end. -/
def endingsOfStmt (xs : List Enclosure) : Stmt → List Room
  | .block body => endingsOfStmts (⟨.block, []⟩ :: xs) body ++ [⟨.block, [], body, xs⟩]
  | .branch _ t none => endingsOfStmt xs t
  | .branch _ t (some e) => endingsOfStmt xs t ++ endingsOfStmt xs e
  | .loop _ body => endingsOfStmt xs body
  | .function d => endingsOfFunction (Enclosure.declaring xs [d.name.lexeme]) d
  | .classDecl name methods statics =>
    endingsOfFunctions (⟨.methods, ["this"]⟩ :: Enclosure.declaring xs [name.lexeme]) methods ++
      endingsOfFunctions (⟨.statics, ["this"]⟩ :: Enclosure.declaring xs [name.lexeme]) statics
  | _ => []

def endingsOfStmts (xs : List Enclosure) : List Stmt → List Room
  | [] => []
  | d :: ds => endingsOfStmt xs d ++ endingsOfStmts (Enclosure.declaring xs (declaredIn [d])) ds

def endingsOfFunction (xs : List Enclosure) : FunctionDecl → List Room
  | .mk _ params body =>
    endingsOfStmts (⟨.function, (params.getD []).map (·.lexeme)⟩ :: xs) body ++
      [⟨.function, params.getD [], body, xs⟩]

def endingsOfFunctions (xs : List Enclosure) : List FunctionDecl → List Room
  | [] => []
  | d :: ds => endingsOfFunction xs d ++ endingsOfFunctions xs ds

end

/-- The rooms of an input, in the order in which they end. -/
def endings : Grammar.Input → List Room
  | .expression _ => []
  | .statements body => endingsOfStmts [] body

mutual

theorem endingsOfStmt_perm : ∀ (d : Stmt) (xs : List Enclosure),
    (endingsOfStmt xs d).Perm (roomsOfStmt xs d)
  | .expression _, _ => .refl _
  | .print _, _ => .refl _
  | .declare .., _ => .refl _
  | .block body, _ => (List.perm_append_singleton ..).trans ((endingsOfStmts_perm body _).cons _)
  | .branch _ t none, xs => endingsOfStmt_perm t xs
  | .branch _ t (some e), xs => (endingsOfStmt_perm t xs).append (endingsOfStmt_perm e xs)
  | .loop _ body, xs => endingsOfStmt_perm body xs
  | .breakLoop _, _ => .refl _
  | .function d, _ => endingsOfFunction_perm d _
  | .returnFrom .., _ => .refl _
  | .classDecl _ methods statics, _ =>
    (endingsOfFunctions_perm methods _).append (endingsOfFunctions_perm statics _)

theorem endingsOfStmts_perm : ∀ (ds : List Stmt) (xs : List Enclosure),
    (endingsOfStmts xs ds).Perm (roomsOfStmts xs ds)
  | [], _ => .refl _
  | d :: ds, xs => (endingsOfStmt_perm d xs).append (endingsOfStmts_perm ds _)

theorem endingsOfFunction_perm : ∀ (d : FunctionDecl) (xs : List Enclosure),
    (endingsOfFunction xs d).Perm (roomsOfFunction xs d)
  | .mk _ _ body, _ =>
    (List.perm_append_singleton ..).trans ((endingsOfStmts_perm body _).cons _)

theorem endingsOfFunctions_perm : ∀ (ds : List FunctionDecl) (xs : List Enclosure),
    (endingsOfFunctions xs ds).Perm (roomsOfFunctions xs ds)
  | [], _ => .refl _
  | d :: ds, xs => (endingsOfFunction_perm d xs).append (endingsOfFunctions_perm ds xs)

end

/-- Each room ends once. -/
lemma endings_perm (input : Grammar.Input) : (endings input).Perm (rooms input) := by
  cases input with
  | expression e => exact .refl _
  | statements body => exact endingsOfStmts_perm body []

/-! ### What is reported at the end of a room -/

namespace Survey

/-- The second survey goes on from the first. The given rooms end, and their unread names are
reported. -/
abbrev Closes (rs : List Room) : Survey → Survey → Prop :=
  Adds (·.isOf .neverRead) (rs.flatMap Room.notices)

section
variable {xs : List Enclosure} {s s' s'' : Survey} {rs qs : List Room} {r : Room}
  {P : ℕ → String → Prop} {cs : List Complaint}

lemma Closes.append (h : Closes rs s s') (h' : Closes qs s' s'') : Closes (rs ++ qs) s s'' := by
  rw [Closes, List.flatMap_append]
  exact h.trans h'

lemma closes_expr (ctx : Context) (e : Expr) (s : Survey) : Closes [] s (expr ctx e s) :=
  adds_expr (fun _ => rfl) (fun _ => rfl) ctx e s

/-- When the survey comes to the end of a room, it knows what has been read. -/
lemma layers_room {f : Survey → Survey} (hs : Settled r.around s)
    (hparams : ∀ p ∈ r.params, p.lexeme ≠ "this")
    (hbody : ∀ s, Settled r.site.scopes s → Tracks r.site.scopes (ReadIn r.site)
      (declarations r.body) cs s (f s)) :
    ∃ ls, (f (r.params.foldl (·.introduce ·) (s.openLayer []))).layers =
      Layer.reading r.Reads ((fresh [] r.declared).map asLocal) :: ls := by
  have hlayers : (f (r.params.foldl (·.introduce ·) (s.openLayer []))).layers =
      Layer.reading (ReadIn r.site (s.layers.length + 1)) ((fresh [] r.declared).map asLocal) ::
        readingAll _ s.layers := (tracks_opened hs hparams hbody).layers
  rw [hs.readIn_site] at hlayers
  exact ⟨_, hlayers⟩

/-- A room is opened, its parameters and its body are surveyed, and it is closed. -/
lemma closes_room {f : Survey → Survey} (hs : Settled r.around s)
    (hparams : ∀ p ∈ r.params, p.lexeme ≠ "this")
    (hbody : ∀ s, Settled r.site.scopes s → Tracks r.site.scopes (ReadIn r.site)
      (declarations r.body) cs s (f s))
    (hinner : ∀ s, Settled r.site.scopes s → Closes rs s (f s)) :
    Closes (rs ++ [r]) s (f (r.params.foldl (·.introduce ·) (s.openLayer []))).closeLayer := by
  have hopen := hs.openLayer r.opener
  have hsettled := hopen.after (tracks_params hopen hparams) hparams
  have hfirst : Closes rs s (f (r.params.foldl (·.introduce ·) (s.openLayer []))) :=
    (adds_params (fun _ => rfl) r.params (s.openLayer [])).trans (hinner _ hsettled)
  obtain ⟨ls, hls⟩ := layers_room hs hparams hbody
  have hlast := adds_closeLayer (·.isOf .neverRead) hls
  have hnotices : ((Layer.reading r.Reads ((fresh [] r.declared).map asLocal)).unread.map
      (about .neverRead)).filter (·.isOf .neverRead) = r.notices := by
    rw [filter_about, if_pos rfl, Layer.unread_reading_asLocal]
    rfl
  rw [hnotices] at hlast
  refine hfirst.append ?_
  rwa [Closes, List.flatMap_singleton]

/-- There is nothing to report of a scope that is open around methods. -/
lemma Closes.inThis {o : Opener} {className : Token}
    (h : Closes rs (s.openLayer (.ofThis className)) s')
    (ht : Tracks (⟨o, ["this"]⟩ :: xs) P [] cs (s.openLayer (.ofThis className)) s') :
    Closes rs s s'.closeLayer := by
  have hlayers : s'.layers = Layer.reading (P (s.layers.length + 1))
      (Layer.ofThis className ++ []) :: readingAll P s.layers := ht.layers
  have hunread : (Layer.reading (P (s.layers.length + 1))
      (Layer.ofThis className ++ [])).unread = [] := by
    by_cases hP : P (s.layers.length + 1) "this" <;>
      simp [Layer.reading, Layer.ofThis, Layer.unread, hP]
  have hlast := adds_closeLayer (·.isOf .neverRead) hlayers
  rw [hunread] at hlast
  have hboth := Adds.trans h hlast
  rwa [List.map_nil, List.filter_nil, List.append_nil] at hboth

end

mutual

theorem closes_stmt {xs : List Enclosure} (ctx : Context) : ∀ d : Stmt, d.Orderly → d.Named →
    ∀ s, Settled xs s → Closes (endingsOfStmt xs d) s (stmt ctx d s)
  | .expression e, _, _, s, _ => closes_expr ctx e s
  | .print e, _, _, s, _ => closes_expr ctx e s
  | .declare name none, _, _, s, _ => adds_introduce (fun _ => rfl) s name
  | .declare name (some e), _, _, s, _ =>
    ((adds_declare (fun _ => rfl) s name).trans (closes_expr ctx e _)).trans (adds_define _ name)
  | .block body, ho, hn, s, hs =>
    closes_room (r := ⟨.block, [], body, xs⟩) (f := stmts ctx body) hs nofun
      (fun s hs => tracks_stmts ctx body ho.inner hn.inner s hs)
      fun s hs => closes_stmts ctx body ho.inner hn.inner s hs
  | .branch c t none, ho, hn, s, hs => by
    have hb : t ∈ (Stmt.branch c t none).branches := by simp [Stmt.branches]
    have hs' := hs.after_reads (tracks_value hs ctx (ho.exprs c (by simp [Stmt.exprs])))
    exact (closes_expr ctx c s).append
      (closes_stmt ctx t (ho.branches t hb) (hn.branches t hb) _ hs')
  | .branch c t (some e), ho, hn, s, hs => by
    have hb : t ∈ (Stmt.branch c t (some e)).branches := by simp [Stmt.branches]
    have hb' : e ∈ (Stmt.branch c t (some e)).branches := by simp [Stmt.branches]
    have hs' := hs.after_reads (tracks_value hs ctx (ho.exprs c (by simp [Stmt.exprs])))
    have ht := (tracks_stmt ctx t (ho.branches t hb) (hn.branches t hb) _ hs').undeclared
      (ho.declared?_branches t hb)
    have hfirst := (closes_expr ctx c s).append
      (closes_stmt ctx t (ho.branches t hb) (hn.branches t hb) _ hs')
    exact hfirst.append
      (closes_stmt ctx e (ho.branches e hb') (hn.branches e hb') _ (hs'.after_reads ht))
  | .loop c body, ho, hn, s, hs => by
    have hb : body ∈ (Stmt.loop c body).branches := by simp [Stmt.branches]
    have hs' := hs.after_reads (tracks_value hs ctx (ho.exprs c (by simp [Stmt.exprs])))
    exact (closes_expr ctx c s).append
      (closes_stmt ctx body (ho.branches body hb) (hn.branches body hb) _ hs')
  | .breakLoop _, _, _, s, _ => .refl _ s
  | .function d, ho, hn, s, hs => by
    have hthis : ∀ t ∈ [d.name], t.lexeme ≠ "this" :=
      List.forall_mem_singleton.mpr (hn.declared rfl)
    have hs' := hs.after (tracks_introduce hs d.name) hthis
    exact (adds_introduce (fun _ => rfl) s d.name).trans
      (closes_function ctx .function d ho.inner hn.function _ hs')
  | .returnFrom keyword none, _, _, s, _ =>
    adds_returnPlace (fun _ => rfl) (fun _ => rfl) s ctx keyword none
  | .returnFrom keyword (some e), _, _, s, _ =>
    (adds_returnPlace (fun _ => rfl) (fun _ => rfl) s ctx keyword (some e)).trans
      (closes_expr ctx e _)
  | .classDecl name methods statics, ho, hn, s, hs => by
    have hthis : ∀ t ∈ [name], t.lexeme ≠ "this" :=
      List.forall_mem_singleton.mpr (hn.declared rfl)
    have hinner : ∀ d ∈ methods ++ statics, ∀ b ∈ d.body, b.Orderly := fun d hd b hb =>
      ho.inner b (List.mem_flatMap.mpr ⟨d, hd, hb⟩)
    have hs' := hs.after (tracks_introduce hs name) hthis
    have hopen := hs'.openThis .methods name
    have hmethods := tracks_methodList { ctx with inClass := true } methods
      (fun d hd => hinner d (List.mem_append_left _ hd))
      (fun d hd => hn.member (List.mem_append_left _ hd)) _ hopen
    have hcloses := closes_methodList { ctx with inClass := true } methods
      (fun d hd => hinner d (List.mem_append_left _ hd))
      (fun d hd => hn.member (List.mem_append_left _ hd)) _ hopen
    have hfirst := (adds_introduce (fun _ => rfl) s name).trans (hcloses.inThis hmethods)
    rw [stmt, endingsOfStmt]
    split
    · rename_i hnone
      rw [List.isEmpty_iff.mp hnone]
      exact Closes.append hfirst (.refl _ _)
    · have hopen' := (hs'.after_reads hmethods.closed_this).openThis .statics name
      have hstatics := tracks_staticList { ctx with inClass := true } statics
        (fun d hd => hinner d (List.mem_append_right _ hd))
        (fun d hd => hn.member (List.mem_append_right _ hd)) _ hopen'
      have hcloses' := closes_staticList { ctx with inClass := true } statics
        (fun d hd => hinner d (List.mem_append_right _ hd))
        (fun d hd => hn.member (List.mem_append_right _ hd)) _ hopen'
      exact Closes.append hfirst (hcloses'.inThis hstatics)

theorem closes_stmts {xs : List Enclosure} (ctx : Context) : ∀ body : List Stmt,
    (∀ d ∈ body, d.Orderly) → (∀ d ∈ body, d.Named) → ∀ s, Settled xs s →
      Closes (endingsOfStmts xs body) s (stmts ctx body s)
  | [], _, _, s, _ => .refl _ s
  | d :: ds, ho, hn, s, hs => by
    obtain ⟨hd, hds⟩ := List.forall_mem_cons.mp ho
    obtain ⟨hd', hds'⟩ := List.forall_mem_cons.mp hn
    have hthis : ∀ t ∈ declarations [d], t.lexeme ≠ "this" := fun t ht => by
      obtain ⟨b, hb, hname⟩ := List.mem_filterMap.mp ht
      exact hd'.declared (List.mem_singleton.mp hb ▸ hname)
    have hs' := hs.after (tracks_stmt ctx d hd hd' s hs) hthis
    exact (closes_stmt ctx d hd hd' s hs).append (closes_stmts ctx ds hds hds' _ hs')

theorem closes_function {xs : List Enclosure} (ctx : Context) (body : Body) :
    ∀ d : FunctionDecl, (∀ b ∈ d.body, b.Orderly) → d.Named → ∀ s, Settled xs s →
      Closes (endingsOfFunction xs d) s (function ctx body d s)
  | .mk _ params code, ho, hn, _, hs =>
    closes_room (r := ⟨.function, params.getD [], code, xs⟩)
      (f := stmts { ctx with body } code) hs hn.params
      (fun s hs => tracks_stmts { ctx with body } code ho hn.body s hs)
      fun s hs => closes_stmts { ctx with body } code ho hn.body s hs

theorem closes_methodList {xs : List Enclosure} (ctx : Context) : ∀ ds : List FunctionDecl,
    (∀ d ∈ ds, ∀ b ∈ d.body, b.Orderly) → (∀ d ∈ ds, d.Named) → ∀ s, Settled xs s →
      Closes (endingsOfFunctions xs ds) s (methodList ctx ds s)
  | [], _, _, s, _ => .refl _ s
  | d :: ds, ho, hn, s, hs => by
    obtain ⟨hd, hds⟩ := List.forall_mem_cons.mp ho
    obtain ⟨hd', hds'⟩ := List.forall_mem_cons.mp hn
    have hs' := hs.after_reads (tracks_function ctx (methodBody d) d hd hd' s hs)
    exact (closes_function ctx (methodBody d) d hd hd' s hs).append
      (closes_methodList ctx ds hds hds' _ hs')

theorem closes_staticList {xs : List Enclosure} (ctx : Context) : ∀ ds : List FunctionDecl,
    (∀ d ∈ ds, ∀ b ∈ d.body, b.Orderly) → (∀ d ∈ ds, d.Named) → ∀ s, Settled xs s →
      Closes (endingsOfFunctions xs ds) s (staticList ctx ds s)
  | [], _, _, s, _ => .refl _ s
  | d :: ds, ho, hn, s, hs => by
    obtain ⟨hd, hds⟩ := List.forall_mem_cons.mp ho
    obtain ⟨hd', hds'⟩ := List.forall_mem_cons.mp hn
    have hs' := hs.after_reads (tracks_function ctx .method d hd hd' s hs)
    exact (closes_function ctx .method d hd hd' s hs).append
      (closes_staticList ctx ds hds hds' _ hs')

end

end Survey

/-! ### The report -/

variable {mode : Grammar.Mode} {source : String} {firstId : NodeId} {input : Grammar.Input}

/-- What is reported of unread locals, in order. -/
lemma complaints_neverRead (hread : (Grammar.read mode source firstId).result = .ok input) :
    (ofInput input).complaints.filter (·.isOf .neverRead) =
      (endings input).flatMap Room.notices := by
  have hempty : Settled [] .empty := ⟨⟨.nil, nofun⟩, nofun⟩
  have ho := (readInput_read hread).orderly
  have hn := named_read hread
  have hall : Closes (endings input) .empty ((rootOf input).survey .outermost .empty) := by
    cases input with
    | expression e => exact closes_expr .outermost e .empty
    | statements body => exact closes_stmts .outermost body ho hn .empty hempty
  rw [findings_ofInput]
  exact hall.findings

lemma fresh_sublist (seen : List String) (ts : List Token) : (fresh seen ts).Sublist ts := by
  induction ts generalizing seen with
  | nil => exact List.Sublist.refl _
  | cons t ts ih =>
    rw [fresh]
    split
    · exact (ih _).cons t
    · exact (ih _).cons_cons t

namespace Room

variable {r : Room}

lemma unread_sublist (r : Room) : r.unread.Sublist r.declared :=
  List.filter_sublist.trans (fresh_sublist [] r.declared)

/-- No two of the unread names have the same spelling. -/
lemma nodup_unread (r : Room) : (r.unread.map (·.lexeme)).Nodup :=
  (nodup_fresh [] r.declared).sublist (List.filter_sublist.map _)

lemma listed_perm (r : Room) : r.listed.Perm r.unread := List.perm_insertionSort _ _

lemma pairwise_listed (r : Room) : r.listed.Pairwise Layer.InOrder :=
  List.pairwise_insertionSort _ _

/-- There is one way only to put the names of a scope in order. -/
lemma eq_listed {ts : List Token} (hperm : ts.Perm r.unread) (hts : ts.Pairwise Layer.InOrder) :
    ts = r.listed := by
  refine List.Perm.eq_of_pairwise (fun a b ha hb hab hba => ?_) hts r.pairwise_listed
    (hperm.trans r.listed_perm.symm)
  have hmem := hperm.mem_iff.mp ha
  have hmem' := r.listed_perm.mem_iff.mp hb
  exact List.inj_on_of_nodup_map r.nodup_unread hmem hmem' (hab.lexeme_eq hba)

/-- On lines of their own the names stay as they are declared. -/
lemma listed_eq (hlines : r.declared.Pairwise (·.line ≤ ·.line))
    (hnodup : (r.unread.map (·.line)).Nodup) : r.listed = r.unread := by
  have hne : r.unread.Pairwise (·.line ≠ ·.line) := List.pairwise_map.mp hnodup
  have hle := hlines.sublist r.unread_sublist
  refine (eq_listed (.refl _) ?_).symm
  refine (hle.and hne).imp fun ⟨hle, hne⟩ => Layer.inOrder_iff.mpr (.inl ?_)
  omega

end Room

/-- The unread locals of each scope are reported as the scope ends, by their lines, and within a
line by spelling. In whatever order a scope keeps its locals, this gives the same. The lines are in
the order of the declarations, so where each unread local has a line of its own, they are reported
as they are declared. -/
theorem unread_reported_by_line (hread : (Grammar.read mode source firstId).result = .ok input) :
    (ofInput input).complaints.filter (·.isOf .neverRead) =
        (endings input).flatMap (fun r => r.listed.map (about .neverRead)) ∧
      (endings input).Perm (rooms input) ∧
      ∀ r ∈ rooms input,
        (∀ ts, ts.Perm r.unread ∧ ts.Pairwise Layer.InOrder ↔ ts = r.listed) ∧
        r.declared.Pairwise (·.line ≤ ·.line) ∧
        ((r.unread.map (·.line)).Nodup → r.listed = r.unread) := by
  refine ⟨complaints_neverRead hread, endings_perm input, fun r hr => ⟨fun ts => ⟨?_, ?_⟩, ?_⟩⟩
  · rintro ⟨hperm, hts⟩
    exact Room.eq_listed hperm hts
  · rintro rfl
    exact ⟨r.listed_perm, r.pairwise_listed⟩
  · have hlines := pairwise_line_declared hread hr
    exact ⟨hlines, Room.listed_eq hlines⟩

/-- Of three locals on two lines, those of the second line are reported by their names. -/
theorem unread_reported_by_line_block :
    let source := "\x7b var z;\nvar b; var a; \x7d"
    ∃ input, (Grammar.read .program source 0).result = .ok input ∧
      [.scope 1 (.token "z") .neverRead, .scope 2 (.token "a") .neverRead,
        .scope 2 (.token "b") .neverRead] =
        (endings input).flatMap (fun r => r.listed.map (about .neverRead)) ∧
      ∀ r ∈ rooms input, r.declared.Pairwise (·.line ≤ ·.line) := by
  intro source
  have hcomplaints : (Grammar.read .program source 0).result.toOption.map
      (fun input => (ofInput input).complaints.filter (·.isOf .neverRead)) =
      some [.scope 1 (.token "z") .neverRead, .scope 2 (.token "a") .neverRead,
        .scope 2 (.token "b") .neverRead] := by
    decide +kernel
  obtain ⟨input, hread, hc⟩ := exists_of_map_toOption hcomplaints
  obtain ⟨hall, -, hrooms⟩ := unread_reported_by_line hread
  exact ⟨input, hread, hc ▸ hall, fun r hr => (hrooms r hr).2.1⟩

/-- On one line the order of the declarations is lost. -/
theorem unread_not_as_declared :
    ∃ input, (Grammar.read .program "\x7b var b; var a; \x7d" 0).result = .ok input ∧
      (ofInput input).complaints.filter (·.isOf .neverRead) ≠
        (endings input).flatMap (fun r => r.unread.map (about .neverRead)) := by
  have hboth : (Grammar.read .program "\x7b var b; var a; \x7d" 0).result.toOption.map
      (fun input => ((ofInput input).complaints.filter (·.isOf .neverRead),
        (endings input).map (·.declared.map (about .neverRead)))) =
      some ([.scope 1 (.token "a") .neverRead, .scope 1 (.token "b") .neverRead],
        [[.scope 1 (.token "b") .neverRead, .scope 1 (.token "a") .neverRead]]) := by
    decide +kernel
  obtain ⟨input, hread, hboth⟩ := exists_of_map_toOption hboth
  obtain ⟨hcomplaints, hdeclared⟩ := Prod.mk.inj hboth
  obtain ⟨r, hone, hr⟩ := List.map_eq_singleton_iff.mp hdeclared
  refine ⟨input, hread, fun hsame => ?_⟩
  rw [hcomplaints, hone, List.flatMap_singleton] at hsame
  -- the names that are not read would stand in the order of the declarations
  have hsublist := r.unread_sublist.map (about .neverRead)
  rw [hr, ← hsame] at hsublist
  exact absurd hsublist (by decide)

end Lox.Scope
