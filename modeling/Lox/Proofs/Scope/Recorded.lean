import Std.Data.TreeMap.Lemmas
import Lox.Proofs.Scope.Inputs

/-!
The recorded distances are those at which the surveys found the names.

Each input has numbers of its own, so that what is recorded for one input is not overwritten by
any later one, accepted or refused.
-/

namespace Lox.Scope

/-- The name that an expression itself refers to, with its number. -/
def refers? : Expr → Option (NodeId × Token)
  | .reference id name => some (id, name)
  | .assign id name _ => some (id, name)
  | .this id keyword => some (id, keyword)
  | _ => none

/-! ### Lookups of a survey -/

lemma mem_lookups_refer {s s' : Survey} {id : NodeId} {name : String} {reads : Bool}
    (h : s'.shape = s.shape) :
    ⟨id, name, s.shape.depth? name⟩ ∈ (s'.refer id name reads).lookups := by
  rw [← h, ← Survey.depth?_eq]
  exact List.mem_cons_self ..

/-- A reference is noted with the depth at which its name is found where the survey comes to it. -/
lemma mem_lookups_expr {ctx : Context} {e : Expr} {s : Survey} (he : e.Orderly)
    (hs : s.shape.Apt) (h : (Survey.expr ctx e s).Clean) {id : NodeId} {name : Token}
    (hr : refers? e = some (id, name)) :
    ⟨id, name.lexeme, s.shape.depth? name.lexeme⟩ ∈ (Survey.expr ctx e s).lookups := by
  cases e with
  | reference i n =>
    obtain ⟨rfl, rfl⟩ : i = id ∧ n = name := by simpa [refers?] using hr
    rw [Survey.expr, Survey.readName]
    split <;> exact mem_lookups_refer rfl
  | assign i n value =>
    obtain ⟨rfl, rfl⟩ : i = id ∧ n = name := by simpa [refers?] using hr
    have hvalue : value.Orderly := by
      obtain ⟨h, -⟩ := he
      exact h value (List.mem_singleton_self _)
    have hclean : (Survey.expr ctx value s).Clean := (Survey.leads_refer ..).clean h
    exact mem_lookups_refer (Survey.shape_expr hvalue s hs hclean)
  | this i n =>
    obtain ⟨rfl, rfl⟩ : i = id ∧ n = name := by simpa [refers?] using hr
    rw [Survey.expr] at h ⊢
    split
    · exact mem_lookups_refer rfl
    · rename_i hc
      rw [if_neg hc] at h
      exact absurd h Survey.not_clean_complain
  | _ => simp [refers?] at hr

/-- The lookups of an input have numbers of its nodes, each at most once. -/
lemma lookups_ids (input : Grammar.Input) :
    List.Subperm ((ofInput input).lookups.map (·.id)) (rootOf input).ids := by
  obtain ⟨more, hmore, hids⟩ := (leads_survey (rootOf input) .outermost .empty).lookups
  rw [findings_ofInput]
  have hall : ((rootOf input).survey .outermost .empty).lookups = more :=
    hmore.trans (List.append_nil more)
  rw [Survey.findings, List.map_reverse, hall]
  exact (List.reverse_perm _).subperm.trans hids

lemma nodup_of_subperm {α : Type} {xs ys : List α} (h : List.Subperm xs ys) (hys : ys.Nodup) :
    xs.Nodup := by
  obtain ⟨zs, hperm, hsub⟩ := h
  exact hperm.nodup_iff.mp (hys.sublist hsub)

/-! ### Adding lookups -/

lemma getElem?_add_of_ne {known : Distances} {l : Lookup} {id : NodeId} (h : l.id ≠ id) :
    (known.add l)[id]? = known[id]? := by
  unfold Distances.add
  split
  · rw [Std.TreeMap.getElem?_insert, if_neg]
    simpa using h
  · rfl

lemma getElem?_add_self {known : Distances} {l : Lookup} (h : known[l.id]? = none) :
    (known.add l)[l.id]? = l.depth := by
  unfold Distances.add
  split
  · rename_i hd
    rw [Std.TreeMap.getElem?_insert_self, hd]
  · rename_i hd
    rw [h, hd]

lemma getElem?_addAll_of_notMem {known : Distances} {ls : List Lookup} {id : NodeId}
    (h : id ∉ ls.map (·.id)) : (known.addAll ls)[id]? = known[id]? := by
  induction ls generalizing known with
  | nil => rfl
  | cons l ls ih =>
    rw [List.map_cons, List.mem_cons, not_or] at h
    exact (ih h.2).trans (getElem?_add_of_ne fun heq => h.1 heq.symm)

lemma getElem?_addAll {known : Distances} {ls : List Lookup} {l : Lookup} (hl : l ∈ ls)
    (hnodup : (ls.map (·.id)).Nodup) (h : known[l.id]? = none) :
    (known.addAll ls)[l.id]? = l.depth := by
  induction ls generalizing known with
  | nil => exact absurd hl List.not_mem_nil
  | cons m ls ih =>
    obtain ⟨hm, hnodup⟩ := List.nodup_cons.mp hnodup
    rcases List.mem_cons.mp hl with rfl | hl
    · exact (getElem?_addAll_of_notMem hm).trans (getElem?_add_self h)
    · have hne : m.id ≠ l.id := by
        intro heq
        exact hm (List.mem_map.mpr ⟨l, hl, heq.symm⟩)
      exact ih hl hnodup ((getElem?_add_of_ne hne).trans h)

/-! ### Over all inputs -/

/-- What is recorded after some inputs were accepted, with all numbers from `nextId` on unused. -/
structure Recorded (known : Distances) (nextId : NodeId) (inputs : List Grammar.Input) : Prop where
  accepted : ∀ input ∈ inputs, Accepted input
  depths : ∀ input ∈ inputs, ∀ l ∈ (ofInput input).lookups,
    l.id < nextId ∧ known[l.id]? = l.depth
  unused : ∀ id, nextId ≤ id → known[id]? = none

namespace Recorded

variable {known : Distances} {i j : NodeId} {inputs : List Grammar.Input} {input : Grammar.Input}

lemma empty : Recorded {} i [] := ⟨nofun, nofun, fun _ _ => Std.TreeMap.getElem?_emptyc⟩

lemma skip (h : Recorded known i inputs) (hij : i ≤ j) : Recorded known j inputs where
  accepted := h.accepted
  depths input hinput l hl :=
    ⟨lt_of_lt_of_le (h.depths input hinput l hl).1 hij, (h.depths input hinput l hl).2⟩
  unused id hid := h.unused id (hij.trans hid)

/-- The numbers of an input that was just read. -/
lemma bounds_lookups (hread : ReadInput i input j) {l : Lookup}
    (hl : l ∈ (ofInput input).lookups) : i ≤ l.id ∧ l.id < j :=
  hread.fresh.bounds _ ((lookups_ids input).subset (List.mem_map_of_mem hl))

/-- What was recorded before an input was read stays. -/
lemma getElem?_below (hread : ReadInput i input j) {id : NodeId} (hid : id < i) :
    (known.addAll (ofInput input).lookups)[id]? = known[id]? := by
  refine getElem?_addAll_of_notMem fun hmem => ?_
  obtain ⟨l, hl, rfl⟩ := List.mem_map.mp hmem
  exact absurd (bounds_lookups hread hl).1 (not_le.mpr hid)

/-- What a refused input leaves behind does no harm. -/
lemma add (h : Recorded known i inputs) (hread : ReadInput i input j) :
    Recorded (known.addAll (ofInput input).lookups) j inputs where
  accepted := h.accepted
  depths input' hinput' l hl := by
    obtain ⟨hlt, hdepth⟩ := h.depths input' hinput' l hl
    refine ⟨lt_of_lt_of_le hlt hread.fresh.le, ?_⟩
    rw [getElem?_addAll_of_notMem, hdepth]
    intro hmem
    obtain ⟨m, hm, heq⟩ := List.mem_map.mp hmem
    exact absurd (heq ▸ (bounds_lookups hread hm).1) (not_le.mpr hlt)
  unused id hid := by
    rw [getElem?_addAll_of_notMem, h.unused id (hread.fresh.le.trans hid)]
    intro hmem
    obtain ⟨m, hm, heq⟩ := List.mem_map.mp hmem
    exact absurd (heq ▸ (bounds_lookups hread hm).2) (not_lt.mpr hid)

/-- An input without complaints is accepted with all of its references recorded. -/
lemma accept (h : Recorded known i inputs) (hread : ReadInput i input j)
    (hclean : (ofInput input).complaints = []) :
    Recorded (known.addAll (ofInput input).lookups) j (input :: inputs) where
  accepted := List.forall_mem_cons.mpr ⟨⟨hread.orderly, hclean, hread.admissible⟩, h.accepted⟩
  depths := by
    refine List.forall_mem_cons.mpr ⟨fun l hl => ?_, (h.add hread).depths⟩
    obtain ⟨hle, hlt⟩ := bounds_lookups hread hl
    have hnodup := nodup_of_subperm (lookups_ids input) hread.fresh.nodup
    exact ⟨hlt, getElem?_addAll hl hnodup (h.unused _ hle)⟩
  unused := (h.add hread).unused

/-- The distance that is recorded for a reference is the depth at which the survey found its name
when it came to it. -/
theorem getElem?_eq (h : Recorded known i inputs) {xs : List Region} {e : Expr} {ctx : Context}
    {s : Survey} (hv : Visited inputs xs (.expr e) ctx s) {id : NodeId} {name : Token}
    (hr : refers? e = some (id, name)) : known[id]? = s.shape.depth? name.lexeme := by
  have hsound := hv.sound h.accepted
  have hmem := mem_lookups_expr hsound.orderly hsound.fits hsound.clean hr
  obtain ⟨input, hinput, hlookups⟩ := hsound.lookups
  exact (h.depths input hinput _ (hlookups _ hmem)).2

end Recorded

end Lox.Scope
