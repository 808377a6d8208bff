import Lox.Proofs.Scope.Naming

/-!
Where `this` leads.

Only the scopes around methods have the name `this`, and wherever `this` may stand there is one of
them. So it is found in the innermost of them.
-/

namespace Lox.Scope

/-- Of the open scopes, just those around methods have the name `this`. -/
abbrev Receiving (xs : List Region) (S : Shape) : Prop :=
  List.Forall₂ (fun (x : Region) (l : Standing) => (l "this").isSome ↔ x.IsThis) xs S

namespace Receiving

variable {xs : List Region} {S : Shape}

lemma put (h : Receiving xs S) {name : String} (hname : name ≠ "this") (b : Bool) :
    Receiving xs (S.put name b) := by
  cases h with
  | nil => exact .nil
  | cons hx hxs =>
    refine .cons ?_ hxs
    rwa [Function.update_of_ne hname.symm]

lemma after (h : Receiving xs S) {d : Stmt} (hd : d.Named) : Receiving xs (S.after d) := by
  unfold Shape.after
  cases hname : d.declared? with
  | none => exact h
  | some name => exact h.put (hd.declared hname) true

lemma afterAll (h : Receiving xs S) {body : List Stmt} (hbody : ∀ d ∈ body, d.Named) :
    Receiving xs (body.foldl Shape.after S) := by
  induction body generalizing S with
  | nil => exact h
  | cons d ds ih =>
    obtain ⟨hd, hds⟩ := List.forall_mem_cons.mp hbody
    exact ih (h.after hd) hds

lemma afterParams (h : Receiving xs S) {params : List Token}
    (hparams : ∀ p ∈ params, p.lexeme ≠ "this") : Receiving xs (S.afterParams params) := by
  induction params generalizing S with
  | nil => exact h
  | cons p ps ih =>
    obtain ⟨hp, hps⟩ := List.forall_mem_cons.mp hparams
    exact ih (h.put hp true) hps

/-- A scope of a block or a function. -/
lemma openScope (h : Receiving xs S) {x : Region} (hx : ¬x.IsThis) :
    Receiving (x :: xs) (Layer.standing [] :: S) :=
  .cons ⟨nofun, fun h => absurd h hx⟩ h

/-- A scope around methods. -/
lemma openClass (h : Receiving xs S) {x : Region} (hx : x.IsThis) :
    Receiving (x :: xs) (Layer.thisStanding :: S) :=
  .cons ⟨fun _ => hx, fun _ => rfl⟩ h

end Receiving

section
variable {n m : Node} {ctx ctx' : Context} {s s' : Survey} {xs ys : List Region}

/-- The scope that is opened for a node inside has the name `this` just if it is one around
methods. -/
lemma Inside.receiving (h : Inside n ctx s ys m ctx' s') {S : Shape} (hn : n.Named)
    (hxs : Receiving xs S) : Receiving (ys ++ xs) (S.entering n m) := by
  cases h with
  | initial => exact hxs.put (Stmt.Named.declared hn rfl) false
  | block => exact hxs.openScope not_false
  | function => exact hxs.put (Stmt.Named.declared hn rfl) true
  | methods => exact (hxs.put (Stmt.Named.declared hn rfl) true).openClass trivial
  | statics => exact (hxs.put (Stmt.Named.declared hn rfl) true).openClass trivial
  | laterStmts => exact hxs.after (hn _ (List.mem_cons_self ..))
  | body =>
    refine Receiving.afterParams (hxs.openScope ?_) (FunctionDecl.Named.params hn)
    exact not_false
  | @heads d _ _ hd => cases d <;> first | exact hxs | exact absurd rfl hd
  | @branches d _ _ hd => cases d <;> first | exact hxs | exact absurd rfl hd
  | _ => exact hxs

end

section
variable {inputs : List Grammar.Input} {n : Node} {ctx : Context} {s : Survey} {xs : List Region}

/-- Wherever a survey comes, just the scopes around methods have the name `this`. -/
lemma Visited.receiving (hinputs : ∀ input ∈ inputs, Accepted input)
    (hnamed : ∀ input ∈ inputs, (rootOf input).Named) (h : Visited inputs xs n ctx s) :
    Receiving xs s.shape := by
  induction h with
  | root => exact .nil
  | inside hv hin ih =>
    have hn := hv.sound hinputs
    have hm := (Visited.inside hv hin).sound hinputs
    rw [hin.shape_eq hn.orderly hn.fits hm.clean]
    exact hin.receiving (hv.named hnamed) ih

/-- No other scope ever gets the name. -/
lemma Visited.isThis_of_declares (hinputs : ∀ input ∈ inputs, Accepted input)
    (hnamed : ∀ input ∈ inputs, (rootOf input).Named) (h : Visited inputs xs n ctx s) :
    ∀ x ∈ xs, x.Declares "this" → x.IsThis := by
  -- at the end of a body there are no names but those declared there
  have hend : ∀ {xs x ctx s} {body : List Stmt}, Visited inputs (x :: xs) (.stmts body) ctx s →
      x.complete = Survey.stmts ctx body s → x.Declares "this" → x.IsThis := by
    rintro xs x ctx s body hv hcomplete ⟨l, hl, hthis⟩
    have hsound := hv.sound hinputs
    have hshape := Survey.shape_stmts ctx body hsound.orderly s hsound.fits hsound.clean
    have hreceiving := (hv.receiving hinputs hnamed).afterAll (hv.named hnamed)
    rw [← hshape, Survey.shape, ← hcomplete] at hreceiving
    cases hlayers : x.complete.layers with
    | nil =>
      rw [hlayers] at hl
      cases hl
    | cons k ks =>
      rw [hlayers] at hl hreceiving
      cases hl
      cases hreceiving with
      | cons hx => exact hx.mp (by rwa [← Layer.contains_iff_standing])
  induction h with
  | root => exact List.forall_mem_nil _
  | inside hv hin ih =>
    have hinside := Visited.inside hv hin
    have hcomplete := hin.complete
    cases hin with
    | block => exact List.forall_mem_cons.mpr ⟨hend hinside (hcomplete _ (by simp)), ih⟩
    | body => exact List.forall_mem_cons.mpr ⟨hend hinside (hcomplete _ (by simp)), ih⟩
    | methods => exact List.forall_mem_cons.mpr ⟨fun _ => trivial, ih⟩
    | statics => exact List.forall_mem_cons.mpr ⟨fun _ => trivial, ih⟩
    | _ => exact ih

end

end Lox.Scope
