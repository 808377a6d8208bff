import Lox.Proofs.Grammar.Relabeling
import Lox.Proofs.Machine.Relabeling
import Lox.Proofs.Scope.Relabeling
import Lox.Proofs.Session.Course

/-!
Sessions that answer alike.

Two sessions may differ in the numbers of nodes and in the lines of what they have read, and in
nothing else. They then take every input in the same way, and differ in nothing else afterwards.
-/

namespace Lox

open Scope Machine

/-- How an input ended, with other numbers and lines in what it left behind. Complaints are about
the input itself. -/
def Ending.relabel (r : Relabeling) : Ending → Ending
  | done v => done (v.map (Value.relabel r))
  | refused cs => refused cs
  | failed f => failed (f.relabel r)
  | unfinished => unfinished

/-- Whether an input came to its end without a failure. -/
def Ending.isDone : Ending → Bool
  | done _ => true
  | _ => false

lemma Ending.exists_of_isDone {e : Ending} (h : e.isDone) : ∃ value, e = .done value := by
  cases e with
  | done value => exact ⟨value, rfl⟩
  | _ => cases h

/-- The failure that an input came to its end with. -/
def Ending.failure? : Ending → Option Failure
  | failed f => some f
  | _ => none

lemma Ending.eq_failed {e : Ending} {f : Failure} (h : e.failure? = some f) : e = .failed f := by
  cases e with
  | failed g => exact congrArg failed (Option.some.inj h)
  | _ => cases h

namespace Session

/-- What is seen of a session after an input: all that was printed so far, and how the input
ended. -/
structure Answer where
  output : ByteArray
  ending : Ending

def Answer.relabel (r : Relabeling) (a : Answer) : Answer := { a with ending := a.ending.relabel r }

/-- The answers to inputs one after another, each run for at most so many steps. -/
def answers : Session → List (ℕ × Grammar.Mode × String) → List Answer
  | _, [] => []
  | s, (n, mode, source) :: later =>
    ⟨(s.submit n mode source).1.output, (s.submit n mode source).2⟩ ::
      answers (s.submit n mode source).1 later

variable {r r' : Relabeling} {k : ℕ} {s t : Session}

/-! ### Other numbers in what is known -/

lemma relabel_input_congr (hline : r.line = r'.line) {input : Grammar.Input}
    (h : ∀ i ∈ (rootOf input).ids, r.node i = r'.node i) : input.relabel r = input.relabel r' := by
  cases input with
  | expression e => exact congrArg Grammar.Input.expression (Expr.relabel_congr hline e h)
  | statements body =>
    have hbody := Stmt.relabelEach_congr hline body h
    rw [Stmt.relabelEach_eq_map, Stmt.relabelEach_eq_map] at hbody
    exact congrArg Grammar.Input.statements hbody

lemma relabel_relabel_input (input : Grammar.Input) :
    (input.relabel r).relabel r' = input.relabel (r.andThen r') := by
  cases input with
  | expression e => exact congrArg Grammar.Input.expression e.relabel_relabel
  | statements body =>
    have hbody : Stmt.relabelEach r' (Stmt.relabelEach r body) =
        Stmt.relabelEach (r.andThen r') body := Stmt.relabelEach_relabelEach body
    simp only [Stmt.relabelEach_eq_map] at hbody
    exact congrArg Grammar.Input.statements hbody

/-- Complaints about names do not depend on where the numbers start. -/
lemma complaints_shift (input : Grammar.Input) :
    (ofInput (input.relabel (.shift k 0))).complaints = (ofInput input).complaints := by
  rw [ofInput_relabel (r := .shift k 0) strictMono_id]
  exact (congrArg (List.map · _) (Complaint.relabel_eq_id _ rfl)).trans (List.map_id _)

lemma getElem?_addAll_relabel (hinj : Function.Injective r.node) {known known' : Distances}
    (h : ∀ i, known'[r.node i]? = known[i]?) (ls : List Lookup) (i : NodeId) :
    (known'.addAll (ls.map (Lookup.relabel r)))[r.node i]? = (known.addAll ls)[i]? := by
  induction ls generalizing known known' with
  | nil => exact h i
  | cons l ls ih =>
    refine ih fun i => ?_
    obtain ⟨id, name, depth⟩ := l
    cases depth with
    | none => exact h i
    | some d =>
      change (known'.insert (r.node id) d)[r.node i]? = (known.insert id d)[i]?
      rw [Std.TreeMap.getElem?_insert, Std.TreeMap.getElem?_insert, h i]
      by_cases hid : id = i
      · simp [hid]
      · simp [hid, hinj.ne hid]

lemma load_relabel (s : Session) (input : Grammar.Input) :
    (s.load input).machine.relabel r =
      ({ s with machine := s.machine.relabel r }.load (input.relabel r)).machine := by
  cases input <;> rfl

lemma ending_relabel (h : r.line 0 = 0) (s : Session) (input : Grammar.Input) :
    (s.ending input).relabel r =
      ({ s with machine := s.machine.relabel r } : Session).ending (input.relabel r) := by
  unfold ending
  dsimp only
  rw [result?_relabel h]
  have hsink : (s.machine.relabel r).world.sink = s.machine.world.sink := rfl
  rw [hsink]
  cases s.machine.result? with
  | none => rfl
  | some x =>
    cases input with
    | expression e => cases x <;> rfl
    | statements body => cases s.machine.world.sink.flushFault? <;> cases x <;> rfl

/-! ### Alike sessions -/

/-- The sessions have become the same once the first is relabeled by `r` and the second by `r'`,
and they go on to do so: the numbers to come are apart by `k`, and both relabelings bring them
together. -/
structure Alike (r r' : Relabeling) (k : ℕ) (s t : Session) : Prop where
  machine : s.machine.relabel r = t.machine.relabel r'
  host : t.host = s.host
  uniform : s.host.Uniform
  nextId : t.nextId = s.nextId + k
  distances : ∃ known : Distances, (∀ i, known[r.node i]? = s.distances[i]?) ∧
    ∀ i, known[r'.node i]? = t.distances[i]?
  node : ∀ i, s.nextId ≤ i → r.node i = r'.node (i + k)
  injective : Function.Injective r.node
  injective' : Function.Injective r'.node
  line : r.line = r'.line
  zero : r.line 0 = 0

namespace Alike

/-- What has just been read becomes the same. -/
lemma input (h : Alike r r' k s t) {input : Grammar.Input} {j : NodeId}
    (hread : ReadInput s.nextId input j) :
    input.relabel r = (input.relabel (.shift k 0)).relabel r' := by
  rw [relabel_relabel_input]
  refine relabel_input_congr ?_ fun i hi => ?_
  · exact h.line
  · exact h.node i (hread.fresh.bounds i hi).1

lemma addAll (h : Alike r r' k s t) {input : Grammar.Input} {j : NodeId}
    (hread : ReadInput s.nextId input j) : ∃ known : Distances,
      (∀ i, known[r.node i]? = (s.distances.addAll (ofInput input).lookups)[i]?) ∧
      ∀ i, known[r'.node i]? =
        (t.distances.addAll (ofInput (input.relabel (.shift k 0))).lookups)[i]? := by
  obtain ⟨known, hs, ht⟩ := h.distances
  have hlookups : ((ofInput (input.relabel (.shift k 0))).lookups).map (Lookup.relabel r') =
      (ofInput input).lookups.map (Lookup.relabel r) := by
    rw [ofInput_relabel (r := .shift k 0) strictMono_id]
    refine (List.map_map ..).trans (List.map_congr_left fun l hl => ?_)
    have hle := (Recorded.bounds_lookups hread hl).1
    exact congrArg (fun i => { l with id := i }) (h.node l.id hle).symm
  refine ⟨known.addAll ((ofInput input).lookups.map (Lookup.relabel r)),
    getElem?_addAll_relabel h.injective hs _, fun i => ?_⟩
  rw [← hlookups]
  exact getElem?_addAll_relabel h.injective' ht _ i

/-- Only numbers and distances are added. -/
lemma go (h : Alike r r' k s t) {j : NodeId} (hj : s.nextId ≤ j) {known known' : Distances}
    (hknown : ∃ both : Distances, (∀ i, both[r.node i]? = known[i]?) ∧
      ∀ i, both[r'.node i]? = known'[i]?) :
    Alike r r' k { s with nextId := j, distances := known }
      { t with nextId := j + k, distances := known' } where
  machine := h.machine
  host := h.host
  uniform := h.uniform
  nextId := rfl
  distances := hknown
  node i hi := h.node i (hj.trans hi)
  injective := h.injective
  injective' := h.injective'
  line := h.line
  zero := h.zero

lemma load (h : Alike r r' k s t) {input input' : Grammar.Input}
    (hinput : input.relabel r = input'.relabel r') :
    Alike r r' k (s.load input) (t.load input') := by
  refine { h with machine := ?_ }
  rw [load_relabel, load_relabel, h.machine, hinput]
  cases input' <;> rfl

/-- Both sessions refuse an input with the same complaints, or both accept it. -/
lemma accept (h : Alike r r' k s t) (mode : Grammar.Mode) (source : String) :
    ∃ s' t', Alike r r' k s' t' ∧
      ((∃ cs, s.accept mode source = (s', .error cs) ∧ t.accept mode source = (t', .error cs)) ∨
        ∃ input, s.accept mode source = (s', .ok input) ∧
          t.accept mode source = (t', .ok (input.relabel (.shift k 0)))) := by
  have hj := nextId_read_le mode source s.nextId
  have hread := Grammar.read_shift mode source s.nextId k
  unfold Session.accept
  rw [h.nextId, hread]
  cases hresult : (Grammar.read mode source s.nextId).result with
  | error cs =>
    simp only [Grammar.Parsed.relabel, hresult, List.map_id]
    exact ⟨_, _, h.go hj h.distances, .inl ⟨cs, rfl, rfl⟩⟩
  | ok input =>
    have hinput := readInput_read hresult
    have hnext := h.go hj (h.addAll hinput)
    simp only [Grammar.Parsed.relabel, hresult]
    unfold acceptTree
    dsimp only
    rw [complaints_shift]
    split
    · exact ⟨_, _, hnext.load (h.input hinput), .inr ⟨_, rfl, rfl⟩⟩
    · exact ⟨_, _, hnext, .inl ⟨_, rfl, rfl⟩⟩

lemma resume (h : Alike r r' k s t) (n : ℕ) :
    Alike r r' k (s.resume n) (t.resume n) := by
  obtain ⟨known, hs, ht⟩ := h.distances
  refine { h with machine := ?_ }
  have hagrees : Setting.Agrees r ⟨s.distances, s.host⟩ ⟨known, s.host⟩ :=
    ⟨h.uniform r h.injective, hs⟩
  have hagrees' : Setting.Agrees r' ⟨t.distances, t.host⟩ ⟨known, s.host⟩ :=
    ⟨h.host ▸ h.uniform r' h.injective', ht⟩
  have hrun := run_relabel hagrees n s.machine
  have hrun' := run_relabel hagrees' n t.machine
  exact hrun.symm.trans ((congrArg (Machine.run _ n) h.machine).trans hrun')

lemma output (h : Alike r r' k s t) : s.output = t.output :=
  congrArg (fun m => m.world.sink.written) h.machine

lemma ending (h : Alike r r' k s t) (input : Grammar.Input) (ids : NodeId) :
    (s.ending input).relabel r = (t.ending (input.relabel (.shift ids 0))).relabel r' := by
  rw [ending_relabel h.zero, ending_relabel (h.line ▸ h.zero), h.machine]
  unfold Session.ending
  cases (t.machine.relabel r').result? with
  | none => rfl
  | some x => cases input <;> cases x <;> rfl

/-- Alike sessions take an input in the same way, and are alike afterwards. -/
theorem submit (h : Alike r r' k s t) (n : ℕ) (mode : Grammar.Mode)
    (source : String) :
    Alike r r' k (s.submit n mode source).1 (t.submit n mode source).1 ∧
      (s.submit n mode source).2.relabel r = (t.submit n mode source).2.relabel r' := by
  obtain ⟨s', t', h', hcases⟩ := h.accept mode source
  unfold Session.submit
  rcases hcases with ⟨cs, hs, ht⟩ | ⟨input, hs, ht⟩
  · rw [hs, ht]
    exact ⟨h', rfl⟩
  · rw [hs, ht]
    have hresumed := h'.resume n
    exact ⟨hresumed, hresumed.ending input k⟩

/-- Alike sessions answer alike ever after. -/
theorem answers (h : Alike r r' k s t) (later : List (ℕ × Grammar.Mode × String)) :
    (s.answers later).map (Answer.relabel r) = (t.answers later).map (Answer.relabel r') := by
  induction later generalizing s t with
  | nil => rfl
  | cons p later ih =>
    obtain ⟨n, mode, source⟩ := p
    obtain ⟨hnext, hending⟩ := h.submit n mode source
    rw [Session.answers, Session.answers, List.map_cons, List.map_cons, ih hnext]
    refine congrArg (· :: _) ?_
    rw [Answer.relabel, Answer.relabel, hnext.output, hending]

end Alike

end Session

end Lox
