import Lox.Proofs.Scope.Tracking

/-!
The complaints of one kind, in the order in which a survey makes them.

A survey never takes a complaint back. So it can be told of each of its parts, for any kind of
complaints, which of them it adds to those that are there.
-/

namespace Lox.Scope.Survey

/-- The second survey goes on from the first. Of the complaints of some kind it adds the given ones,
in this order. -/
def Adds (kind : Complaint → Bool) (cs : List Complaint) (s s' : Survey) : Prop :=
  s'.complaints.filter kind = cs.reverse ++ s.complaints.filter kind

section
variable {kind : Complaint → Bool} {cs ds : List Complaint} {s s' s'' : Survey}

lemma Adds.refl (kind : Complaint → Bool) (s : Survey) : Adds kind [] s s := rfl

lemma Adds.trans (h : Adds kind cs s s') (h' : Adds kind ds s' s'') :
    Adds kind (cs ++ ds) s s'' := by
  rw [Adds, h', h, List.reverse_append, List.append_assoc]

lemma adds_of_complaints (kind : Complaint → Bool)
    (h : s'.complaints = cs.reverse ++ s.complaints) : Adds kind (cs.filter kind) s s' := by
  rw [Adds, h, List.filter_append, List.filter_reverse]

lemma adds_nothing (h : s'.complaints = s.complaints) : Adds kind [] s s' := congrArg _ h

/-- What is there in the end, if nothing was there at first. -/
lemma Adds.findings (h : Adds kind cs .empty s) : s.findings.complaints.filter kind = cs := by
  have hall : s.complaints.filter kind = cs.reverse ++ [] := h
  rw [Survey.findings, List.filter_reverse, hall, List.append_nil, List.reverse_reverse]

/-! ### Complaints of other kinds -/

lemma adds_complain (s : Survey) {t : Token} {f : Fault} (hf : kind (about f t) = false) :
    Adds kind [] s (s.complain t f) := by
  have hone : (s.complain t f).complaints = [about f t].reverse ++ s.complaints := rfl
  have h := adds_of_complaints kind hone
  rwa [List.filter_cons_of_neg (by simp [hf])] at h

lemma adds_declare (hkind : ∀ t, kind (about .alreadyDeclared t) = false) (s : Survey)
    (t : Token) : Adds kind [] s (s.declare t) := by
  unfold declare
  split
  · exact .refl kind s
  · split
    · exact adds_complain s (hkind t)
    · exact adds_nothing rfl

lemma adds_define (s : Survey) (t : Token) : Adds kind [] s (s.define t) :=
  adds_nothing (complaints_define s t)

lemma adds_introduce (hkind : ∀ t, kind (about .alreadyDeclared t) = false) (s : Survey)
    (t : Token) : Adds kind [] s (s.introduce t) :=
  (adds_declare hkind s t).trans (adds_define _ t)

lemma adds_params (hkind : ∀ t, kind (about .alreadyDeclared t) = false) (ts : List Token)
    (s : Survey) : Adds kind [] s (ts.foldl (·.introduce ·) s) := by
  induction ts generalizing s with
  | nil => exact .refl kind s
  | cons t ts ih => exact (adds_introduce hkind s t).trans (ih _)

lemma adds_readName (hkind : ∀ t, kind (about .readInOwnInitializer t) = false) (s : Survey)
    (id : NodeId) (t : Token) : Adds kind [] s (s.readName id t) := by
  unfold readName
  split
  · exact adds_complain s (hkind t)
  · exact adds_nothing rfl

lemma adds_returnPlace (htop : ∀ t, kind (about .returnFromTopLevel t) = false)
    (hvalue : ∀ t, kind (about .valueFromInitializer t) = false) (s : Survey) (ctx : Context)
    (keyword : Token) (value : Option Expr) :
    Adds kind [] s (s.returnPlace ctx keyword value) := by
  unfold returnPlace
  dsimp only
  split <;> split
  · exact (adds_complain s (htop keyword)).trans (adds_complain _ (hvalue keyword))
  · exact adds_complain s (hvalue keyword)
  · exact adds_complain s (htop keyword)
  · exact .refl kind s

lemma adds_exprs {ctx : Context} {es : List Expr}
    (h : ∀ e ∈ es, ∀ s, Adds kind [] s (expr ctx e s)) (s : Survey) :
    Adds kind [] s (exprs ctx es s) := by
  induction es generalizing s with
  | nil => exact .refl kind s
  | cons e es ih =>
    obtain ⟨he, hes⟩ := List.forall_mem_cons.mp h
    exact (he s).trans (ih hes _)

lemma adds_expr (hread : ∀ t, kind (about .readInOwnInitializer t) = false)
    (hthis : ∀ t, kind (about .thisOutsideClass t) = false) (ctx : Context) (e : Expr)
    (s : Survey) : Adds kind [] s (expr ctx e s) := by
  induction e using Expr.induction_parts generalizing s with
  | h e ih =>
    have hnote : ∀ s, Adds kind [] s (s.note ctx e) := fun s => by
      cases e with
      | reference id name => exact adds_readName hread s id name
      | this id keyword =>
        rw [note]
        split
        · exact adds_nothing rfl
        · exact adds_complain s (hthis keyword)
      | _ => exact adds_nothing rfl
    rw [expr_eq]
    exact (adds_exprs ih s).trans (hnote _)

/-! ### The end of a scope -/

lemma adds_closeLayer (kind : Complaint → Bool) {l : Layer} {ls : List Layer}
    (hl : s.layers = l :: ls) :
    Adds kind ((l.unread.map (about .neverRead)).filter kind) s s.closeLayer := by
  refine adds_of_complaints kind ?_
  unfold closeLayer
  rw [hl]
  exact complaints_foldl l.unread .neverRead _

lemma adds_closeLayer_nothing (hkind : ∀ t, kind (about .neverRead t) = false) (s : Survey) :
    Adds kind [] s s.closeLayer := by
  cases hl : s.layers with
  | nil =>
    refine adds_nothing ?_
    unfold closeLayer
    rw [hl]
  | cons l ls =>
    have h := adds_closeLayer kind hl
    rwa [List.filter_eq_nil_iff.mpr] at h
    intro c hc
    obtain ⟨t, -, rfl⟩ := List.mem_map.mp hc
    simp [hkind t]

end

end Lox.Scope.Survey
