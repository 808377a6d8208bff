import Lox.Proofs.Scope.Lines
import Lox.Proofs.Scope.Renaming

/-!
The findings on trees in which local variables have another name.

The layers of the marked scopes have the new name in place of the old one. As the new name stands
nowhere in the tree, it is found where the old one was, and hides nothing.
-/

namespace Lox.Scope

variable {r : Renaming} {mark : Bool} {marks : List Bool}

/-! ### Layers -/

namespace Layer

/-- A layer in which the names may be others, and their lives have come as far. -/
abbrev Renamed (r : Renaming) (mark : Bool) (l l' : Layer) : Prop :=
  Table.Like (r.key mark) (fun v v' : Local => v'.status = v.status) l l'

namespace Renamed

variable {l l' : Layer}

lemma status? (h : Renamed r mark l l') (name : String) :
    l'.status? (r.key mark name) = l.status? name := by
  have hget := h.get? (r.key_injective mark) name
  unfold Layer.status?
  generalize l.get? name = a at hget ⊢
  generalize l'.get? (r.key mark name) = a' at hget ⊢
  cases hget with
  | none => rfl
  | some hv => exact congrArg some hv

lemma contains (h : Renamed r mark l l') (name : String) :
    l'.contains (r.key mark name) = l.contains name := by
  have hget := h.get? (r.key_injective mark) name
  unfold Table.contains
  generalize l.get? name = a at hget ⊢
  generalize l'.get? (r.key mark name) = a' at hget ⊢
  cases hget <;> rfl

lemma declare (h : Renamed r mark l l') (name : Token) :
    Renamed r mark (l.declare name) (l'.declare (r.token mark name)) :=
  Table.Like.insert h (r.key_injective mark) name.lexeme rfl

lemma mark_status (h : Renamed r mark l l') (name : String) (status : Status) :
    Renamed r mark (l.mark name status) (l'.mark (r.key mark name) status) := by
  have hget := h.get? (r.key_injective mark) name
  unfold Layer.mark
  generalize l.get? name = a at hget ⊢
  generalize l'.get? (r.key mark name) = a' at hget ⊢
  cases hget with
  | none => exact h
  | some => exact Table.Like.insert h (r.key_injective mark) name rfl

lemma length_unread (h : Renamed r mark l l') : l'.unread.length = l.unread.length := by
  rw [(unread_perm l).length_eq, (unread_perm l').length_eq, List.length_map, List.length_map]
  induction h with
  | nil => rfl
  | cons hp _ ih =>
    rw [List.filter_cons, List.filter_cons, hp.2]
    split
    · exact congrArg Nat.succ ih
    · exact ih

/-- A name is not found in a scope because of its other name in another scope. -/
lemma not_contains (h : Renamed r mark l l') (hl : ¬l.contains r.new) {name : String}
    (hname : name ≠ r.new) (hnot : ¬l.contains name) (other : Bool) :
    ¬l'.contains (r.key other name) := by
  have hfound : ∀ n, ¬l.contains n → ¬l'.contains (r.key mark n) := fun n hn => by
    rwa [h.contains]
  cases mark <;> cases other
  · exact hfound name hnot
  · by_cases hold : name = r.old
    · have hkey : r.key true name = r.key false r.new := hold ▸ Equiv.swap_apply_left ..
      exact hkey ▸ hfound r.new hl
    · have hkey : r.key true name = r.key false name := Renaming.key_of_ne hold hname
      exact hkey ▸ hfound name hnot
  · by_cases hold : name = r.old
    · have hkey : r.key false name = r.key true r.new := hold ▸ (Equiv.swap_apply_right ..).symm
      exact hkey ▸ hfound r.new hl
    · have hkey : r.key false name = r.key true name := (Renaming.key_of_ne hold hname).symm
      exact hkey ▸ hfound name hnot
  · exact hfound name hnot

end Renamed

end Layer

/-- The open layers, each with its mark. None of the first ones has the new name. -/
inductive Layers (r : Renaming) : List Bool → List Layer → List Layer → Prop
  | nil : Layers r [] [] []
  | cons {mark marks l l' ls ls'} : Layer.Renamed r mark l l' → ¬l.contains r.new →
      Layers r marks ls ls' → Layers r (mark :: marks) (l :: ls) (l' :: ls')

namespace Layers

variable {ls ls' : List Layer} {name : String} {other : Bool}

/-- A name is found in the same scope. -/
lemma findIdx? (h : Layers r marks ls ls') (hname : name ≠ r.new)
    (hother : ∀ d, ls.findIdx? (·.contains name) = some d → marks.getD d false = other) :
    ls'.findIdx? (·.contains (r.key other name)) = ls.findIdx? (·.contains name) := by
  induction h with
  | nil => rfl
  | @cons mark marks l l' ls ls' hl hnew _ ih =>
    rw [List.findIdx?_cons] at hother
    rw [List.findIdx?_cons, List.findIdx?_cons]
    by_cases hc : l.contains name
    · rw [if_pos hc] at hother
      have hmark : mark = other := hother 0 rfl
      rw [if_pos hc, if_pos (hmark ▸ (hl.contains name).trans hc)]
    · rw [if_neg hc] at hother
      rw [if_neg hc, if_neg (hl.not_contains hnew hname hc other)]
      refine congrArg _ (ih fun d hd => ?_)
      exact hother (d + 1) (by rw [hd]; rfl)

lemma modify (h : Layers r marks ls ls') {d : ℕ} (hd : marks.getD d false = other)
    (status : Status) :
    Layers r marks (ls.modify d (·.mark name status))
      (ls'.modify d (·.mark (r.key other name) status)) := by
  induction h generalizing d with
  | nil => cases d <;> exact .nil
  | @cons mark marks l l' ls ls' hl hnew h ih =>
    cases d with
    | zero =>
      obtain rfl : mark = other := hd
      exact .cons (hl.mark_status name status) (by rwa [Survey.contains_mark]) h
    | succ d => exact .cons hl hnew (ih hd)

lemma tail (h : Layers r marks ls ls') : Layers r marks.tail ls.tail ls'.tail := by
  cases h with
  | nil => exact .nil
  | cons _ _ h => exact h

end Layers

/-! ### Single notes -/

namespace Survey

/-- The second survey has found in the renamed tree what the first one has found: the same
distances, and as many complaints. -/
structure Renamed (r : Renaming) (marks : List Bool) (s s' : Survey) : Prop where
  layers : Layers r marks s.layers s'.layers
  lookups : s'.lookups.map (fun l => (l.id, l.depth)) = s.lookups.map (fun l => (l.id, l.depth))
  complaints : s'.complaints.length = s.complaints.length

/-- What was looked up is known. -/
def Known (known : Distances) (s : Survey) : Prop := ∀ l ∈ s.lookups, known[l.id]? = l.depth

lemma Leads.known {ids : List NodeId} {s s' : Survey} {known : Distances} (h : Leads ids s s')
    (hs' : Known known s') : Known known s :=
  fun l hl => hs' l (h.lookups_suffix.subset hl)

lemma known_of_closeLayer {s : Survey} {known : Distances} (h : Known known s.closeLayer) :
    Known known s := by
  rwa [Known, lookups_closeLayer] at h

namespace Renamed

variable {s s' : Survey}

lemma complain (h : Renamed r marks s s') (t t' : Token) (f : Fault) :
    Renamed r marks (s.complain t f) (s'.complain t' f) :=
  ⟨h.layers, h.lookups, congrArg Nat.succ h.complaints⟩

lemma openLayer (h : Renamed r marks s s') {l l' : Layer} (hl : Layer.Renamed r mark l l')
    (hnew : ¬l.contains r.new) : Renamed r (mark :: marks) (s.openLayer l) (s'.openLayer l') :=
  ⟨.cons hl hnew h.layers, h.lookups, h.complaints⟩

lemma openEmpty (h : Renamed r marks s s') (mark : Bool) :
    Renamed r (mark :: marks) (s.openLayer []) (s'.openLayer []) :=
  h.openLayer .nil Bool.false_ne_true

lemma openThis (h : Renamed r marks s s') (name : Token) :
    Renamed r (false :: marks) (s.openLayer (.ofThis name)) (s'.openLayer (.ofThis name)) := by
  refine h.openLayer (.cons ⟨rfl, rfl⟩ .nil) ?_
  have hthis : "this" ≠ r.new := fun h => by
    have hname := r.new_name
    rw [← h] at hname
    exact absurd hname (by decide)
  simp [Layer.ofThis, Table.contains, Table.get?, hthis]

lemma closeLayer (h : Renamed r marks s s') :
    Renamed r marks.tail s.closeLayer s'.closeLayer where
  layers := by
    rw [layers_closeLayer, layers_closeLayer]
    exact h.layers.tail
  lookups := by
    rw [lookups_closeLayer, lookups_closeLayer, h.lookups]
  complaints := by
    have hlayers := h.layers
    unfold Survey.closeLayer
    cases hs : s.layers with
    | nil =>
      rw [hs] at hlayers
      generalize s'.layers = ls' at hlayers
      cases hlayers
      exact h.complaints
    | cons l ls =>
      rw [hs] at hlayers
      generalize s'.layers = ls' at hlayers
      cases hlayers with
      | cons hl =>
        dsimp only
        rw [complaints_foldl, complaints_foldl, List.length_append, List.length_append,
          List.length_reverse, List.length_reverse, List.length_map, List.length_map,
          hl.length_unread, h.complaints]

lemma declare (h : Renamed r marks s s') {name : Token} (hname : name.lexeme ≠ r.new) :
    Renamed r marks (s.declare name) (s'.declare (r.declared marks name)) := by
  obtain ⟨layers, lookups, complaints⟩ := s
  obtain ⟨layers', lookups', complaints'⟩ := s'
  obtain ⟨hlayers, hlookups, hcomplaints⟩ := h
  dsimp only at hlayers hlookups hcomplaints
  cases hlayers with
  | nil => exact ⟨.nil, hlookups, hcomplaints⟩
  | @cons mark marks l l' ls ls' hl hnew hrest =>
    have hc : l'.contains (r.declared (mark :: marks) name).lexeme = l.contains name.lexeme :=
      hl.contains name.lexeme
    unfold Survey.declare
    dsimp only
    rw [hc]
    split
    · exact ⟨.cons hl hnew hrest, hlookups, congrArg Nat.succ hcomplaints⟩
    · refine ⟨.cons (hl.declare name) ?_ hrest, hlookups, hcomplaints⟩
      rw [contains_declare_iff]
      exact not_or.mpr ⟨hnew, hname.symm⟩

lemma define (h : Renamed r marks s s') (name : Token) :
    Renamed r marks (s.define name) (s'.define (r.declared marks name)) := by
  obtain ⟨layers, lookups, complaints⟩ := s
  obtain ⟨layers', lookups', complaints'⟩ := s'
  obtain ⟨hlayers, hlookups, hcomplaints⟩ := h
  dsimp only at hlayers hlookups hcomplaints
  cases hlayers with
  | nil => exact ⟨.nil, hlookups, hcomplaints⟩
  | @cons mark marks l l' ls ls' hl hnew hrest =>
    have hstatus : l'.status? (r.declared (mark :: marks) name).lexeme = l.status? name.lexeme :=
      hl.status? name.lexeme
    unfold Survey.define
    dsimp only
    rw [hstatus]
    split
    · refine ⟨.cons (hl.mark_status name.lexeme .defined) ?_ hrest, hlookups, hcomplaints⟩
      rwa [contains_mark]
    · exact ⟨.cons hl hnew hrest, hlookups, hcomplaints⟩

lemma introduce (h : Renamed r marks s s') {name : Token} (hname : name.lexeme ≠ r.new) :
    Renamed r marks (s.introduce name) (s'.introduce (r.declared marks name)) :=
  (h.declare hname).define name

lemma params (h : Renamed r (mark :: marks) s s') {ps : List Token}
    (hps : ∀ p ∈ ps, p.lexeme ≠ r.new) :
    Renamed r (mark :: marks) (ps.foldl (·.introduce ·) s)
      ((ps.map (r.token mark)).foldl (·.introduce ·) s') := by
  induction ps generalizing s s' with
  | nil => exact h
  | cons p ps ih =>
    obtain ⟨hp, hps⟩ := List.forall_mem_cons.mp hps
    exact ih (h.introduce hp) hps

/-- A name leads to the same scope. -/
lemma refer (h : Renamed r marks s s') {id : NodeId} {name : Token} {reads : Bool}
    (hname : name.lexeme ≠ r.new) (hknown : r.known[id]? = s.depth? name.lexeme) :
    Renamed r marks (s.refer id name.lexeme reads)
      (s'.refer id (r.referred marks id name).lexeme reads) := by
  have hmark : ∀ d, s.depth? name.lexeme = some d → marks.getD d false = r.leads marks id := by
    intro d hd
    rw [Renaming.leads, hknown, hd]
  have hdepth : s'.depth? (r.referred marks id name).lexeme = s.depth? name.lexeme :=
    h.layers.findIdx? hname hmark
  unfold Survey.refer
  rw [hdepth]
  refine ⟨?_, congrArg (_ :: ·) h.lookups, h.complaints⟩
  cases hd : s.depth? name.lexeme with
  | none => exact h.layers
  | some d =>
    cases reads with
    | false => exact h.layers
    | true => exact h.layers.modify (hmark d hd) .read

/-- A name that waits for its value is in the innermost layer. -/
lemma isWaiting (h : Renamed r marks s s') {id : NodeId} {name : Token}
    (hname : name.lexeme ≠ r.new) (hknown : r.known[id]? = s.depth? name.lexeme) :
    s'.isWaiting (r.referred marks id name).lexeme = s.isWaiting name.lexeme := by
  obtain ⟨layers, lookups, complaints⟩ := s
  obtain ⟨layers', lookups', complaints'⟩ := s'
  obtain ⟨hlayers, -, -⟩ := h
  dsimp only at hlayers
  cases hlayers with
  | nil => rfl
  | @cons mark marks l l' ls ls' hl hnew hrest =>
    refine congrArg (fun status => decide (status = some Status.declared)) ?_
    by_cases hc : l.contains name.lexeme
    · have hdepth : (⟨l :: ls, lookups, complaints⟩ : Survey).depth? name.lexeme = some 0 := by
        rw [depth?, List.findIdx?_cons, if_pos hc]
      rw [hdepth] at hknown
      have hleads : r.leads (mark :: marks) id = mark := by
        rw [Renaming.leads, hknown]
        rfl
      rw [Renaming.referred, hleads]
      exact hl.status? name.lexeme
    · have hnone : ∀ {l : Layer} {n : String}, ¬l.contains n → l.status? n = none := by
        intro l n hn
        rw [Layer.status?, Option.map_eq_none_iff]
        exact Option.not_isSome_iff_eq_none.mp hn
      rw [hnone hc]
      exact hnone (hl.not_contains hnew hname hc _)

lemma readName (h : Renamed r marks s s') {id : NodeId} {name : Token}
    (hname : name.lexeme ≠ r.new) (hknown : r.known[id]? = s.depth? name.lexeme) :
    Renamed r marks (s.readName id name) (s'.readName id (r.referred marks id name)) := by
  unfold Survey.readName
  rw [h.isWaiting hname hknown]
  split
  · exact (h.complain name (r.referred marks id name) .readInOwnInitializer).refer hname hknown
  · exact h.refer hname hknown

lemma returnPlace (h : Renamed r marks s s') (ctx : Context) (keyword : Token)
    (value : Option Expr) :
    Renamed r marks (s.returnPlace ctx keyword value)
      (s'.returnPlace ctx keyword (value.map (Expr.rename r marks))) := by
  unfold Survey.returnPlace
  rw [Option.isSome_map]
  dsimp only
  split <;> split
  · exact (h.complain keyword keyword _).complain keyword keyword _
  · exact h.complain keyword keyword _
  · exact h.complain keyword keyword _
  · exact h

end Renamed

/-! ### Trees -/

lemma parts_rename (e : Expr) :
    (e.rename r marks).parts = e.parts.map (Expr.rename r marks) := by
  cases e with
  | call callee paren arguments =>
    exact congrArg (_ :: ·) (Expr.renameEach_eq_map r marks arguments)
  | _ => rfl

variable {ctx : Context} {s s' : Survey}

/-- What an expression itself refers to was looked up where its parts had been surveyed. -/
lemma known_refer {known : Distances} {id : NodeId} {name : String} (reads : Bool)
    (h : Known known (s.refer id name reads)) : known[id]? = s.depth? name :=
  h ⟨id, name, s.depth? name⟩ (List.mem_cons_self ..)

lemma Renamed.note (h : Renamed r marks s s') {e : Expr} (he : e.Avoids r.new)
    (hknown : Known r.known (s.note ctx e)) :
    Renamed r marks (s.note ctx e) (s'.note ctx (e.rename r marks)) := by
  cases e with
  | reference id name =>
    refine h.readName (he name (List.mem_singleton_self _)) ?_
    have hread : Known r.known (s.readName id name) := hknown
    unfold Survey.readName at hread
    dsimp only at hread
    split at hread <;> exact known_refer true hread
  | assign id name value =>
    exact h.refer (he name (List.mem_cons_self ..)) (known_refer false hknown)
  | this id keyword =>
    unfold Survey.note Expr.rename at *
    dsimp only at *
    split
    · rename_i hclass
      rw [if_pos hclass] at hknown
      exact h.refer (he keyword (List.mem_singleton_self _)) (known_refer true hknown)
    · exact h.complain ..
  | _ => exact h

lemma Renamed.exprs {es : List Expr} (hes : ∀ e ∈ es, e.Avoids r.new)
    (ih : ∀ e ∈ es, ∀ s s', Renamed r marks s s' → e.Avoids r.new → Known r.known (expr ctx e s) →
      Renamed r marks (expr ctx e s) (expr ctx (e.rename r marks) s')) (h : Renamed r marks s s')
    (hknown : Known r.known (exprs ctx es s)) :
    Renamed r marks (exprs ctx es s) (exprs ctx (es.map (Expr.rename r marks)) s') := by
  induction es generalizing s s' with
  | nil => exact h
  | cons e es ihes =>
    obtain ⟨he, hes⟩ := List.forall_mem_cons.mp hes
    obtain ⟨ih, ihrest⟩ := List.forall_mem_cons.mp ih
    have hfirst : Known r.known (expr ctx e s) :=
      (leads_exprs ctx es (fun e _ => leads_expr ctx e) _).known hknown
    exact ihes hes ihrest (ih s s' h he hfirst) hknown

/-- The survey of a renamed expression finds the same. -/
theorem renamed_expr (e : Expr) : ∀ s s', Renamed r marks s s' → e.Avoids r.new →
    Known r.known (expr ctx e s) →
      Renamed r marks (expr ctx e s) (expr ctx (e.rename r marks) s') := by
  induction e using Expr.induction_parts with
  | h e ih =>
    intro s s' h he hknown
    rw [expr_eq] at hknown ⊢
    rw [expr_eq, parts_rename]
    have hparts := Renamed.exprs (fun p hp => he.part hp) ih h
      ((leads_note ctx e _).known hknown)
    exact hparts.note he hknown

end Survey

/-! ### Nodes -/

lemma Node.Renamed.name_eq {strict : Bool} {sort sort' : Body} {d d' : FunctionDecl}
    (h : Node.Renamed strict r marks (.function sort d) (.function sort' d')) :
    d'.name = d.name := by
  cases h
  rfl

lemma Node.Renamed.methodBody_eq {strict : Bool} {sort sort' : Body} {d d' : FunctionDecl}
    (h : Node.Renamed strict r marks (.function sort d) (.function sort' d')) :
    Survey.methodBody d' = Survey.methodBody d := by
  rw [Survey.methodBody, h.name_eq, Survey.methodBody]

open Survey in
/-- The survey of a renamed node finds the same. -/
theorem Node.Renamed.survey {n n' : Node} (h : Node.Renamed true r marks n n') :
    ∀ {ctx : Context} {s s' : Survey}, Survey.Renamed r marks s s' → n.Avoids r.new →
      Known r.known (n.survey ctx s) →
        Survey.Renamed r marks (n.survey ctx s) (n'.survey ctx s') := by
  induction h with
  | @expr marks e => exact fun hs => renamed_expr e _ _ hs
  | @expression marks e =>
    exact fun hs hnew => renamed_expr e _ _ hs (hnew.exprs e (List.mem_singleton_self e))
  | @print marks e =>
    exact fun hs hnew => renamed_expr e _ _ hs (hnew.exprs e (List.mem_singleton_self e))
  | @declare marks name initial =>
    intro ctx s s' hs hnew hknown
    have hname := hnew.given name (List.mem_singleton_self name)
    cases initial with
    | none => exact hs.introduce hname
    | some e =>
      have he := hnew.exprs e (List.mem_singleton_self e)
      refine (renamed_expr e _ _ (hs.declare hname) he ?_).define name
      exact (@leads_define [] _ name).known hknown
  | @block marks body body' mark _ _ ih =>
    intro ctx s s' hs hnew hknown
    have hbody : Known r.known (Survey.stmts ctx body (s.openLayer [])) :=
      known_of_closeLayer hknown
    exact (ih (hs.openEmpty mark) hnew.inner hbody).closeLayer
  | @ifThen marks c t t' _ ih =>
    intro ctx s s' hs hnew hknown
    have hc := renamed_expr c _ _ hs (hnew.exprs c (List.mem_singleton_self c))
      ((leads_stmt ctx t _).known hknown)
    exact ih hc (hnew.branches t (List.mem_cons_self ..)) hknown
  | @ifElse marks c t t' e e' _ _ ih ih' =>
    intro ctx s s' hs hnew hknown
    have ht : Known r.known (Survey.stmt ctx t (Survey.expr ctx c s)) :=
      (leads_stmt ctx e _).known hknown
    have hc := renamed_expr c _ _ hs (hnew.exprs c (List.mem_singleton_self c))
      ((leads_stmt ctx t _).known ht)
    have hfirst := ih hc (hnew.branches t (List.mem_cons_self ..)) ht
    exact ih' hfirst (hnew.branches e (List.mem_cons_of_mem _ (List.mem_cons_self ..))) hknown
  | @loop marks c body body' _ ih =>
    intro ctx s s' hs hnew hknown
    have hc := renamed_expr c _ _ hs (hnew.exprs c (List.mem_singleton_self c))
      ((leads_stmt ctx body _).known hknown)
    exact ih hc (hnew.branches body (List.mem_cons_self ..)) hknown
  | breakLoop => exact fun hs _ _ => hs
  | @function marks d d' hname hd ih =>
    intro ctx s s' hs hnew hknown
    have hintroduced := hs.introduce (hnew.given d.name (List.mem_cons_self ..))
    rw [hname rfl] at hintroduced
    dsimp only [Node.survey, Survey.stmt]
    rw [hd.name_eq]
    exact ih hintroduced hnew.function hknown
  | @returnFrom marks keyword value =>
    intro ctx s s' hs hnew hknown
    have hplace := hs.returnPlace ctx keyword value
    cases value with
    | none => exact hplace
    | some e => exact renamed_expr e _ _ hplace (hnew.exprs e (List.mem_singleton_self e)) hknown
  | @classDecl marks name ms ms' ss ss' hname _ hss ih ih' =>
    intro ctx s s' hs hnew hknown
    have hintroduced := hs.introduce (hnew.given name (List.mem_cons_self ..))
    rw [hname rfl] at hintroduced
    have hempty : ss'.isEmpty = ss.isEmpty := by cases hss <;> rfl
    dsimp only [Node.survey, Survey.stmt] at hknown ⊢
    rw [hempty]
    have hmembers : Known r.known (methodList { ctx with inClass := true } ms
        ((s.introduce name).openLayer (.ofThis name))) := by
      split at hknown
      · exact known_of_closeLayer hknown
      · have hopened := (leads_staticList _ ss _).known (known_of_closeLayer hknown)
        exact known_of_closeLayer hopened
    have hmethods := (ih (hintroduced.openThis name)
      (fun d hd => hnew.member (List.mem_append_left _ hd)) hmembers).closeLayer
    split
    · exact hmethods
    · rename_i hne
      rw [if_neg hne] at hknown
      exact (ih' (hmethods.openThis name) (fun d hd => hnew.member (List.mem_append_right _ hd))
        (known_of_closeLayer hknown)).closeLayer
  | nil => exact fun hs _ _ => hs
  | @cons marks d d' ds ds' _ _ ih ih' =>
    intro ctx s s' hs hnew hknown
    obtain ⟨hd, hds⟩ := List.forall_mem_cons.mp hnew
    exact ih' (ih hs hd ((leads_stmts ctx ds _).known hknown)) hds hknown
  | @body marks sort name params code code' mark _ _ ih =>
    intro ctx s s' hs hnew hknown
    have hparams := (hs.openEmpty mark).params hnew.params
    have htokens : (params.map (·.map (r.token mark))).getD [] =
        (params.getD []).map (r.token mark) := by
      cases params <;> rfl
    have hcode := (ih hparams hnew.body (known_of_closeLayer hknown)).closeLayer
    dsimp only [Node.survey, Survey.function]
    rw [htokens]
    exact hcode
  | noMethods => exact fun hs _ _ => hs
  | @method marks d d' ds ds' hd _ ih ih' =>
    intro ctx s s' hs hnew hknown
    obtain ⟨hfirst, hrest⟩ := List.forall_mem_cons.mp hnew
    have hmethod := ih hs hfirst ((leads_methodList ctx ds _).known hknown)
    dsimp only [Node.survey, methodList]
    rw [hd.methodBody_eq]
    exact ih' hmethod hrest hknown
  | noStatics => exact fun hs _ _ => hs
  | @static marks d d' ds ds' _ _ ih ih' =>
    intro ctx s s' hs hnew hknown
    obtain ⟨hfirst, hrest⟩ := List.forall_mem_cons.mp hnew
    exact ih' (ih hs hfirst ((leads_staticList ctx ds _).known hknown)) hrest hknown

end Lox.Scope
