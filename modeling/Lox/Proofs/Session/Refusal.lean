import Lox.Proofs.Session.Activations
import Lox.Proofs.Session.Answers

/-!
Refused inputs leave no trace.

A refused input may have used up numbers of nodes and recorded distances under them. No other node
has such a number, neither of the code that is there nor of any that comes later. So the session
goes on as if the input had never been.
-/

namespace Lox

open Scope Machine

/-- What a complaint is about. -/
inductive Complaint.Topic
  | text
  | grammar
  | names

def Complaint.topic : Complaint → Topic
  | lexical .. => .text
  | grammar .. => .grammar
  | scope .. => .names

namespace Relabeling

/-- The numbers below `n` stay, and the others do not get below `n`. -/
structure Fixes (r : Relabeling) (n : NodeId) : Prop where
  injective : Function.Injective r.node
  line : r.line = id
  below : ∀ i < n, r.node i = i
  above : ∀ i, n ≤ i → n ≤ r.node i

variable {r : Relabeling} {n : NodeId}

lemma Fixes.mono {m : NodeId} (h : r.Fixes m) (hnm : n ≤ m) : r.Fixes n where
  injective := h.injective
  line := h.line
  below i hi := h.below i (lt_of_lt_of_le hi hnm)
  above i hi := by
    by_cases him : i < m
    · rwa [h.below i him]
    · exact hnm.trans (h.above i (not_lt.mp him))

lemma same_fixes (n : NodeId) : same.Fixes n :=
  ⟨Function.injective_id, rfl, fun _ _ => rfl, fun _ h => h⟩

/-- The numbers from `n` on are raised by `k`. -/
def raise (n k : NodeId) : Relabeling := ⟨fun i => if i < n then i else i + k, id⟩

lemma raise_below {n k i : NodeId} (h : i < n) : (raise n k).node i = i := if_pos h

lemma raise_above {n k i : NodeId} (h : n ≤ i) : (raise n k).node i = i + k := if_neg (not_lt.mpr h)

lemma raise_injective (n k : NodeId) : Function.Injective (raise n k).node := by
  intro i j h
  by_cases hi : i < n <;> by_cases hj : j < n
  · rwa [raise_below hi, raise_below hj] at h
  · rw [raise_below hi, raise_above (not_lt.mp hj)] at h
    exact absurd (h ▸ hi) (not_lt.mpr ((not_lt.mp hj).trans (Nat.le_add_right j k)))
  · rw [raise_above (not_lt.mp hi), raise_below hj] at h
    exact absurd (h ▸ hj) (not_lt.mpr ((not_lt.mp hi).trans (Nat.le_add_right i k)))
  · rw [raise_above (not_lt.mp hi), raise_above (not_lt.mp hj)] at h
    exact Nat.add_right_cancel h

lemma raise_fixes (n k : NodeId) : (raise n k).Fixes n where
  injective := raise_injective n k
  line := rfl
  below _ h := raise_below h
  above i h := by
    rw [raise_above h]
    exact h.trans (Nat.le_add_right i k)

end Relabeling

namespace Session

variable {services : List Service} {sink : Sink} {s s' : Session} {past : List Session}
  {inputs : List Grammar.Input} {mode : Grammar.Mode} {source : String} {input : Grammar.Input}
  {complaints : List Complaint}

/-! ### Numbers of the code that is there -/

/-- All nodes in the machine have numbers below the next one, and so have all recorded distances. -/
structure Numbered (s : Session) : Prop where
  machine : ∀ r : Relabeling, r.Fixes s.nextId → s.machine.relabel r = s.machine
  recorded : Recorded s.distances s.nextId []

lemma relabel_eq_self {i j : NodeId} (hread : ReadInput i input j) {r : Relabeling}
    (hr : r.Fixes j) : input.relabel r = input := by
  have hsame : input.relabel .same = input := by
    cases input with
    | expression e => exact congrArg Grammar.Input.expression e.relabel_same
    | statements body =>
      have hbody := Stmt.relabelEach_same body
      rw [Stmt.relabelEach_eq_map] at hbody
      exact congrArg Grammar.Input.statements hbody
  refine (relabel_input_congr ?_ fun i hi => ?_).trans hsame
  · exact hr.line
  · exact hr.below i (hread.fresh.bounds i hi).2

lemma table_relabel (services : List Service) (r : Relabeling) :
    (Service.table services).mapValues (Value.relabel r) = Service.table services := by
  rw [Service.table, ← Table.ofList_map, List.map_map]
  rfl

lemma numbered_start : Numbered (start services sink) where
  machine r _ := by
    have hframes : (Frames.empty.push (Service.table services)).mapValues (Value.relabel r) =
        Frames.empty.push (Service.table services) := by
      rw [← Frames.push_mapValues, table_relabel, Frames.mapValues_empty]
    have hworld : (start services sink).machine.world.relabel r =
        (start services sink).machine.world := by
      simp only [start, World.relabel, hframes, Array.map_empty]
    exact congrArg (fun world => { (start services sink).machine with world }) hworld
  recorded := .empty

lemma Numbered.agrees (h : Numbered s) (hhost : s.host.Uniform) {r : Relabeling}
    (hr : r.Fixes s.nextId) :
    Setting.Agrees r ⟨s.distances, s.host⟩ ⟨s.distances, s.host⟩ := by
  refine ⟨hhost r hr.injective, fun i => ?_⟩
  dsimp only
  by_cases hi : i < s.nextId
  · rw [hr.below i hi]
  · have hle := not_lt.mp hi
    rw [h.recorded.unused i hle, h.recorded.unused _ (hr.above i hle)]

lemma Numbered.step (h : Numbered s) (hhost : s.host.Uniform) : Numbered s.step where
  machine r hr := by
    have hmachine : s.machine.relabel r = s.machine := h.machine r hr
    have hstep := step_relabel (h.agrees hhost hr) s.machine
    rw [hmachine] at hstep
    exact hstep.symm
  recorded := h.recorded

lemma Numbered.refused (h : Numbered s) (hs : Refusal s s') : Numbered s' where
  machine r hr := by
    rw [hs.machine]
    exact h.machine r (hr.mono hs.nextId)
  recorded := by
    rcases hs.distances with heq | ⟨input, hread, heq⟩
    · rw [heq]
      exact h.recorded.skip hs.nextId
    · rw [heq]
      exact h.recorded.add hread

lemma Numbered.accepted (h : Numbered s) (hs : s.accept mode source = (s', .ok input)) :
    Numbered s' := by
  obtain ⟨hread, -, hs'⟩ := accept_eq_ok hs
  rw [hs']
  refine ⟨fun r hr => ?_, h.recorded.add hread⟩
  have hmachine : s.machine.relabel r = s.machine := h.machine r (hr.mono hread.fresh.le)
  rw [load_relabel, relabel_eq_self hread hr]
  exact congrArg (fun machine => ({ s with machine }.load input).machine) hmachine

/-- At every moment of a session, its code has numbers of its own. -/
lemma Course.numbered (hhost : (Service.host services).Uniform)
    (h : Course services sink past inputs) : ∃ s before, past = s :: before ∧ Numbered s := by
  induction h with
  | start => exact ⟨_, _, rfl, numbered_start⟩
  | step h ih =>
    obtain ⟨s, before, hs, hnumbered⟩ := ih
    cases hs
    exact ⟨_, _, rfl, hnumbered.step (host_of_course h ▸ hhost)⟩
  | refused _ _ ha ih =>
    obtain ⟨s, before, hs, hnumbered⟩ := ih
    cases hs
    exact ⟨_, _, rfl, hnumbered.refused (accept_eq_error ha)⟩
  | accepted _ _ ha ih =>
    obtain ⟨s, before, hs, hnumbered⟩ := ih
    cases hs
    exact ⟨_, _, rfl, hnumbered.accepted ha⟩

lemma Rests.numbered (hhost : (Service.host services).Uniform) (h : Rests services sink s) :
    Numbered s ∧ s.host = Service.host services := by
  obtain ⟨-, past, inputs, hcourse⟩ := h.course
  obtain ⟨t, before, heq, hnumbered⟩ := hcourse.numbered hhost
  cases heq
  exact ⟨hnumbered, host_of_course hcourse⟩

/-! ### The session goes on -/

/-- A session that has refused an input goes on as it would have gone on without. -/
lemma Numbered.alike (h : Numbered s) (hhost : s.host.Uniform) (hs : Refusal s s') :
    Alike (.raise s.nextId (s'.nextId - s.nextId)) .same (s'.nextId - s.nextId) s s' where
  machine := by
    rw [h.machine _ (Relabeling.raise_fixes ..), hs.machine, h.machine _ (Relabeling.same_fixes _)]
  host := hs.host
  uniform := hhost
  nextId := (Nat.add_sub_cancel' hs.nextId).symm
  distances := by
    -- the numbers that were used up are skipped
    refine ⟨s'.distances, fun i => ?_, fun _ => rfl⟩
    by_cases hi : i < s.nextId
    · rw [Relabeling.raise_below hi]
      rcases hs.distances with heq | ⟨input, hread, heq⟩
      · rw [heq]
      · rw [heq, Recorded.getElem?_below hread hi]
    · have hle := not_lt.mp hi
      have hunused := (h.refused hs).recorded.unused
      rw [Relabeling.raise_above hle, h.recorded.unused i hle, hunused]
      calc s'.nextId = s.nextId + (s'.nextId - s.nextId) := (Nat.add_sub_cancel' hs.nextId).symm
        _ ≤ i + (s'.nextId - s.nextId) := Nat.add_le_add_right hle _
  node i hi := Relabeling.raise_above hi
  injective := Relabeling.raise_injective ..
  injective' := Function.injective_id
  line := rfl
  zero := rfl

lemma relabel_relabel_answer {r r' : Relabeling} (a : Answer) :
    (a.relabel r).relabel r' = a.relabel (r.andThen r') := by
  obtain ⟨output, ending⟩ := a
  refine congrArg (Answer.mk output) ?_
  cases ending with
  | done v =>
    cases v with
    | none => rfl
    | some v => exact congrArg (fun v => Ending.done (some v)) v.relabel_relabel
  | failed f => cases f <;> rfl
  | _ => rfl

/-- A refused input makes no difference to any later answer, up to the numbers of nodes. -/
lemma Numbered.answers (h : Numbered s) (hhost : s.host.Uniform) (hs : Refusal s s')
    (later : List (ℕ × Grammar.Mode × String)) :
    (s'.answers later).map (Answer.relabel .unnumbered) =
      (s.answers later).map (Answer.relabel .unnumbered) := by
  have hforget : ∀ (r : Relabeling) (as : List Answer), r.andThen .unnumbered = .unnumbered →
      (as.map (Answer.relabel r)).map (Answer.relabel .unnumbered) =
        as.map (Answer.relabel .unnumbered) := by
    intro r as hr
    rw [List.map_map]
    exact List.map_congr_left fun a _ => (relabel_relabel_answer a).trans (by rw [hr])
  rw [← hforget .same _ rfl, ← (h.alike hhost hs).answers later, hforget _ _ rfl]

/-! ### Complaints -/

/-- All complaints about the grammar of a text. -/
def grammarComplaints (mode : Grammar.Mode) (source : String) : List Complaint :=
  match (Grammar.inputOf mode (Source.tokens source) 0).result with
  | .error cs => cs
  | .ok _ => []

/-- All complaints about the names in a text that has a tree. -/
def nameComplaints (mode : Grammar.Mode) (source : String) : List Complaint :=
  match (Grammar.inputOf mode (Source.tokens source) 0).result with
  | .error _ => []
  | .ok input => (ofInput input).complaints

lemma topic_lexicalComplaints {c : Complaint} (h : c ∈ Grammar.lexicalComplaints source) :
    c.topic = .text := by
  obtain ⟨⟨line, f⟩, -, rfl⟩ := List.mem_map.mp h
  rfl

lemma topic_grammarComplaints {c : Complaint} (h : c ∈ grammarComplaints mode source) :
    c.topic = .grammar := by
  unfold grammarComplaints at h
  split at h
  · rename_i cs hcs
    obtain ⟨line, place, e, rfl⟩ := Grammar.inputOf_complaints hcs c h
    rfl
  · cases h

lemma topic_nameComplaints {c : Complaint} (h : c ∈ nameComplaints mode source) :
    c.topic = .names := by
  unfold nameComplaints at h
  split at h
  · cases h
  · rename_i input hinput
    rw [findings_ofInput] at h
    -- a survey adds complaints about names to those that are there, and there were none
    obtain ⟨more, hmore, hnames⟩ := (leads_survey (rootOf input) .outermost .empty).complaints
    have hall : c ∈ more ++ [] := hmore ▸ List.mem_reverse.mp h
    rw [List.append_nil] at hall
    obtain ⟨line, place, f, rfl⟩ := hnames c hall
    rfl

/-- No text is refused without complaints. -/
lemma inputOf_result_ne (mode : Grammar.Mode) (tokens : List Token) (i : NodeId) :
    (Grammar.inputOf mode tokens i).result ≠ .error [] := by
  have hmap : ∀ {α β : Type} {f : α → β} {x : Except (List Complaint) α}, x ≠ .error [] →
      x.map f ≠ .error [] := by
    intro α β f x hx h
    cases x with
    | ok a => cases h
    | error cs => exact hx (congrArg Except.error (Except.error.inj h))
  cases mode with
  | program => exact hmap (Grammar.program_result_ne tokens i)
  | expression => exact hmap (Grammar.singleExpression_result_ne tokens i)
  | line =>
    rw [Grammar.inputOf]
    rcases Grammar.line_cases tokens i with hline | ⟨j, -, hline⟩
    · rw [hline]
      exact hmap (Grammar.singleExpression_result_ne tokens i)
    · rw [hline]
      exact hmap (Grammar.program_result_ne tokens j)

/-- What becomes of an input is up to its text alone: complaints about the text and its grammar
come first, and those about names only if there are none. -/
lemma accept_eq (s : Session) (mode : Grammar.Mode) (source : String) :
    (Grammar.lexicalComplaints source ++ grammarComplaints mode source ≠ [] ∧
      ∃ s', s.accept mode source =
        (s', .error (Grammar.lexicalComplaints source ++ grammarComplaints mode source))) ∨
    (Grammar.lexicalComplaints source = [] ∧ grammarComplaints mode source = [] ∧
      nameComplaints mode source ≠ [] ∧
        ∃ s', s.accept mode source = (s', .error (nameComplaints mode source))) ∨
    (Grammar.lexicalComplaints source = [] ∧ grammarComplaints mode source = [] ∧
      nameComplaints mode source = [] ∧ ∃ s' input, s.accept mode source = (s', .ok input)) := by
  have hshift := Grammar.inputOf_shift mode source 0 s.nextId
  rw [Nat.zero_add] at hshift
  have hne := inputOf_result_ne mode (Source.tokens source) 0
  unfold Session.accept Grammar.read Grammar.readBy grammarComplaints nameComplaints
  rw [hshift]
  cases hresult : (Grammar.inputOf mode (Source.tokens source) 0).result with
  | error cs =>
    have hcs : cs ≠ [] := fun h => hne (hresult.trans (congrArg _ h))
    left
    simp [Grammar.Parsed.relabel, hresult, hcs]
  | ok input =>
    by_cases hlexical : Grammar.lexicalComplaints source = []
    · have hsame : (ofInput (input.relabel (.shift s.nextId 0))).complaints =
          (ofInput input).complaints := complaints_shift input
      right
      by_cases hnames : (ofInput input).complaints = []
      · right
        simp [Grammar.Parsed.relabel, hresult, hlexical, acceptTree, hsame, hnames]
      · left
        simp [Grammar.Parsed.relabel, hresult, hlexical, acceptTree, hsame, hnames]
    · left
      simp [Grammar.Parsed.relabel, hresult, hlexical]

lemma ending_ne_refused (s : Session) (input : Grammar.Input) (cs : List Complaint) :
    s.ending input ≠ .refused cs := by
  unfold ending
  cases s.machine.result? with
  | none => exact Ending.noConfusion
  | some x =>
    cases input with
    | expression e => cases x <;> exact Ending.noConfusion
    | statements body =>
      cases s.machine.world.sink.flushFault? <;> cases x <;> exact Ending.noConfusion

/-- A session after an input is as it was before, for all that can be seen of it. -/
structure NoTrace (s s' : Session) : Prop where
  /-- Nothing is printed, and no variable, frame or object is changed. -/
  machine : s'.machine = s.machine
  /-- All later inputs are answered as they would have been, up to the numbers of nodes. -/
  answers : ∀ later, (s'.answers later).map (Answer.relabel .unnumbered) =
    (s.answers later).map (Answer.relabel .unnumbered)

/-- The complaints are all those about the text and then all those about its grammar; or, if there
are none of these, all those about its names. -/
def Unmixed (mode : Grammar.Mode) (source : String) (complaints : List Complaint) : Prop :=
  (complaints = Grammar.lexicalComplaints source ++ grammarComplaints mode source ∧
    (∀ c ∈ Grammar.lexicalComplaints source, c.topic = .text) ∧
    ∀ c ∈ grammarComplaints mode source, c.topic = .grammar) ∨
  (Grammar.lexicalComplaints source = [] ∧ grammarComplaints mode source = [] ∧
    complaints = nameComplaints mode source ∧ ∀ c ∈ complaints, c.topic = .names)

/-- An input that is refused, in whatever mode, leaves no trace, and the complaints are of one sort
or of the two sorts that come first. An input that fails while it runs has no complaints at all. -/
theorem refused_without_trace (hhost : (Service.host services).Uniform)
    (h : Rests services sink s) (n : ℕ) (mode : Grammar.Mode) (source : String) :
    (∀ complaints, (s.submit n mode source).2 = .refused complaints →
      NoTrace s (s.submit n mode source).1 ∧ complaints ≠ [] ∧ Unmixed mode source complaints) ∧
    (∀ f, (s.submit n mode source).2 = .failed f → Grammar.lexicalComplaints source = [] ∧
      grammarComplaints mode source = [] ∧ nameComplaints mode source = []) := by
  obtain ⟨hnumbered, hs⟩ := h.numbered hhost
  have hleave : ∀ {s' cs}, s.accept mode source = (s', .error cs) → NoTrace s s' := by
    intro s' cs ha
    have hrefusal := accept_eq_error ha
    exact ⟨hrefusal.machine, hnumbered.answers (hs ▸ hhost) hrefusal⟩
  unfold Session.submit
  rcases s.accept_eq mode source with ⟨hne, s', ha⟩ | ⟨hl, hg, hne, s', ha⟩ |
    ⟨hl, hg, hn, s', input, ha⟩
  · rw [ha]
    refine ⟨fun cs hcs => ?_, fun f hf => Ending.noConfusion hf⟩
    cases hcs
    exact ⟨hleave ha, hne, .inl ⟨rfl, fun c => topic_lexicalComplaints,
      fun c => topic_grammarComplaints⟩⟩
  · rw [ha]
    refine ⟨fun cs hcs => ?_, fun f hf => Ending.noConfusion hf⟩
    cases hcs
    exact ⟨hleave ha, hne, .inr ⟨hl, hg, rfl, fun c => topic_nameComplaints⟩⟩
  · rw [ha]
    exact ⟨fun cs hcs => absurd hcs (ending_ne_refused _ input cs), fun _ _ => ⟨hl, hg, hn⟩⟩

lemma uniform_clock (now : Float) : (Service.host [.clock now]).Uniform := by
  intro r _ name args
  unfold Service.host
  split
  · rename_i service hfind
    obtain rfl := List.mem_singleton.mp (List.mem_of_find?_eq_some hfind)
    rfl
  · rfl

/-- A local variable that is never read is refused, after another input has been run. -/
theorem refused_without_trace_of_unread_local :
    let s := (start [.clock 0] .unlimited).run 8 "var a = clock();"
    let t := s.1.run 8 "\x7b var b; \x7d"
    s.2.isDone ∧ ∃ complaints, t.2 = .refused complaints ∧ NoTrace s.1 t.1 ∧
      complaints ≠ [] ∧ Unmixed .program "\x7b var b; \x7d" complaints := by
  intro s t
  have hdone : s.2.isDone := by decide +kernel
  have hend : s.2 ≠ .unfinished := by
    intro h
    rw [h] at hdone
    cases hdone
  have hrefused : t.2 matches .refused _ := by decide +kernel
  obtain ⟨complaints, hcomplaints⟩ : ∃ complaints, t.2 = .refused complaints := by
    generalize t.2 = ending at hrefused
    cases ending with
    | refused complaints => exact ⟨complaints, rfl⟩
    | _ => cases hrefused
  exact ⟨hdone, complaints, hcomplaints, (refused_without_trace (uniform_clock 0)
    (.submit .start hend) 8 .program _).1 complaints hcomplaints⟩

end Session

end Lox
