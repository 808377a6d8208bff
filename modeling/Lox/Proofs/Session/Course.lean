import Lox.Session
import Lox.Proofs.Machine.Steps
import Lox.Proofs.Scope.Recorded

/-!
The course of a session, one moment after another.

Between its inputs a session rests: nothing waits in its machine. An input is then refused, or
accepted and run step by step. Every state that a session comes to in this way is a moment of its
course.
-/

namespace Lox.Session

open Scope Machine

/-- One step of the machine. -/
def step (s : Session) : Session :=
  { s with machine := s.machine.step ⟨s.distances, s.host⟩ }

/-- The moments of a session so far, the latest first, and the inputs that were accepted. -/
inductive Course (services : List Service) (sink : Sink) :
    List Session → List Grammar.Input → Prop
  | start : Course services sink [.start services sink] []
  | step {s past inputs} : Course services sink (s :: past) inputs →
      Course services sink (s.step :: s :: past) inputs
  | refused {s s' past inputs mode source complaints} :
      Course services sink (s :: past) inputs → s.machine.isHalted →
      s.accept mode source = (s', .error complaints) →
      Course services sink (s' :: s :: past) inputs
  | accepted {s s' past inputs mode source input} :
      Course services sink (s :: past) inputs → s.machine.isHalted →
      s.accept mode source = (s', .ok input) →
      Course services sink (s' :: s :: past) (input :: inputs)

/-- The sessions between two inputs, if every input so far has come to its end. -/
inductive Rests (services : List Service) (sink : Sink) : Session → Prop
  | start : Rests services sink (.start services sink)
  | submit {s n mode source} : Rests services sink s → (s.submit n mode source).2 ≠ .unfinished →
      Rests services sink (s.submit n mode source).1

variable {services : List Service} {sink : Sink} {s s' t : Session} {past : List Session}
  {inputs : List Grammar.Input} {mode : Grammar.Mode} {source : String} {input : Grammar.Input}
  {complaints : List Complaint}

/-! ### Acceptance -/

/-- A refused input leaves numbers and distances behind, and nothing else. -/
structure Refusal (s s' : Session) : Prop where
  machine : s'.machine = s.machine
  host : s'.host = s.host
  nextId : s.nextId ≤ s'.nextId
  distances : s'.distances = s.distances ∨ ∃ input, ReadInput s.nextId input s'.nextId ∧
    s'.distances = s.distances.addAll (ofInput input).lookups

lemma acceptTree_eq_error (h : s.acceptTree input = (s', .error complaints)) :
    s' = { s with distances := s.distances.addAll (ofInput input).lookups } ∧
      (ofInput input).complaints = complaints ∧ complaints ≠ [] := by
  unfold acceptTree at h
  dsimp only at h
  split at h
  · cases h
  · rename_i hc
    obtain ⟨rfl, he⟩ := Prod.mk.inj h
    cases he
    exact ⟨rfl, rfl, fun hnil => hc (List.isEmpty_iff.mpr hnil)⟩

lemma acceptTree_eq_ok {input' : Grammar.Input} (h : s.acceptTree input = (s', .ok input')) :
    s' = { s with distances := s.distances.addAll (ofInput input).lookups }.load input ∧
      input' = input ∧ (ofInput input).complaints = [] := by
  unfold acceptTree at h
  dsimp only at h
  split at h
  · rename_i hc
    obtain ⟨rfl, he⟩ := Prod.mk.inj h
    cases he
    exact ⟨rfl, rfl, List.isEmpty_iff.mp hc⟩
  · cases h

lemma accept_eq_error (h : s.accept mode source = (s', .error complaints)) : Refusal s s' := by
  unfold accept at h
  dsimp only at h
  split at h
  · obtain ⟨rfl, -⟩ := Prod.mk.inj h
    exact ⟨rfl, rfl, nextId_read_le .., .inl rfl⟩
  · rename_i input hread
    obtain ⟨rfl, -⟩ := acceptTree_eq_error h
    exact ⟨rfl, rfl, nextId_read_le .., .inr ⟨input, readInput_read hread, rfl⟩⟩

lemma accept_eq_ok (h : s.accept mode source = (s', .ok input)) :
    ReadInput s.nextId input s'.nextId ∧ (ofInput input).complaints = [] ∧
      s' = { s with
        nextId := s'.nextId
        distances := s.distances.addAll (ofInput input).lookups }.load input := by
  unfold accept at h
  dsimp only at h
  split at h
  · cases h
  · rename_i input' hread
    obtain ⟨rfl, rfl, hclean⟩ := acceptTree_eq_ok h
    exact ⟨readInput_read hread, hclean, rfl⟩

lemma read_of_accept (h : s.accept mode source = (s', .ok input)) :
    Grammar.read mode source s.nextId = ⟨.ok input, s'.nextId⟩ := by
  unfold accept at h
  cases hread : Grammar.read mode source s.nextId with
  | mk result j =>
    rw [hread] at h
    cases result with
    | error cs => cases h
    | ok input' =>
      obtain ⟨rfl, rfl, -⟩ := acceptTree_eq_ok h
      rfl

/-! ### Whole inputs -/

lemma resume_succ (s : Session) (n : ℕ) : s.resume (n + 1) = (s.resume n).step :=
  congrArg (fun m => { s with machine := m }) (run_succ ..)

lemma Course.resume (h : Course services sink (s :: past) inputs) (n : ℕ) :
    ∃ more : List Session, more.length = n ∧
      Course services sink (s.resume n :: (more ++ past)) inputs := by
  induction n with
  | zero => exact ⟨[], rfl, h⟩
  | succ n ih =>
    obtain ⟨more, hlength, hmore⟩ := ih
    rw [resume_succ]
    exact ⟨s.resume n :: more, congrArg (· + 1) hlength, hmore.step⟩

/-- A session that takes an input, for however many steps, goes on with its course. -/
theorem Course.submit (h : Course services sink (s :: past) inputs) (hs : s.machine.isHalted)
    (n : ℕ) (mode : Grammar.Mode) (source : String) : ∃ more inputs',
      Course services sink ((s.submit n mode source).1 :: (more ++ s :: past)) inputs' := by
  unfold Session.submit
  obtain ⟨s', r, haccept⟩ : ∃ s' r, s.accept mode source = (s', r) := ⟨_, _, rfl⟩
  rw [haccept]
  cases r with
  | error complaints => exact ⟨[], inputs, h.refused hs haccept⟩
  | ok input =>
    obtain ⟨more, -, hmore⟩ := (h.accepted hs haccept).resume n
    exact ⟨more, _, hmore⟩

/-- Where an input has come to its end, nothing waits in the machine. -/
lemma isHalted_of_ending {n : ℕ} (hs : s.machine.isHalted)
    (h : (s.submit n mode source).2 ≠ .unfinished) :
    (s.submit n mode source).1.machine.isHalted := by
  unfold Session.submit at h ⊢
  obtain ⟨s', r, haccept⟩ : ∃ s' r, s.accept mode source = (s', r) := ⟨_, _, rfl⟩
  rw [haccept] at h ⊢
  cases r with
  | error complaints =>
    have hmachine : s'.machine = s.machine := (accept_eq_error haccept).machine
    change s'.machine.isHalted
    rwa [hmachine]
  | ok input =>
    change (s'.resume n).machine.isHalted
    change (s'.resume n).ending input ≠ .unfinished at h
    -- a machine that is not at rest has no result yet
    generalize s'.resume n = t at h ⊢
    by_contra hhalted
    refine h ?_
    unfold ending
    have hresult : t.machine.result? = none := by
      unfold isHalted at hhalted
      unfold result?
      split at hhalted
      · exact absurd rfl hhalted
      · exact absurd rfl hhalted
      · rfl
    rw [hresult]

/-- Sessions at rest are moments of a course. -/
lemma Rests.course (h : Rests services sink s) :
    s.machine.isHalted ∧ ∃ past inputs, Course services sink (s :: past) inputs := by
  induction h with
  | start => exact ⟨rfl, [], [], .start⟩
  | submit _ hend ih =>
    obtain ⟨hs, past, inputs, hcourse⟩ := ih
    obtain ⟨more, inputs', hmore⟩ := hcourse.submit hs _ _ _
    exact ⟨isHalted_of_ending hs hend, _, inputs', hmore⟩

/-- A first input that is accepted is run for any number of steps. -/
lemma Course.first (services : List Service) (sink : Sink) (mode : Grammar.Mode) (source : String)
    (h : ((Session.start services sink).accept mode source).2.isOk) (n : ℕ) :
    ∃ (more : List Session) (input : Grammar.Input), n ≤ more.length ∧
      Course services sink
        (((Session.start services sink).accept mode source).1.resume n :: more) [input] := by
  obtain ⟨s, r, hr⟩ : ∃ s r, (Session.start services sink).accept mode source = (s, r) :=
    ⟨_, _, rfl⟩
  rw [hr] at h ⊢
  cases r with
  | error => cases h
  | ok input =>
    obtain ⟨more, hlength, hmore⟩ := (Course.start.accepted rfl hr).resume n
    refine ⟨_, input, ?_, hmore⟩
    rw [List.length_append, hlength]
    omega

/-! ### What is known all along -/

/-- A scene fits a moment of a session, after some inputs were accepted. -/
structure Fits (x : Scene) (inputs : List Grammar.Input) (s : Session) : Prop where
  recorded : Recorded s.distances s.nextId inputs
  invariant : Invariant x s.machine
  inputs : x.inputs = inputs

/-- The scene at the start: there is only the frame of the globals. -/
def startScene (services : List Service) : Scene where
  inputs := []
  accepted := nofun
  labels := [none]
  globals := rfl
  frames := Frames.empty.push (Service.table services)

lemma valueOk_table {x : Scene} {name : String} {v : Value}
    (h : (Service.table services).get? name = some v) : ValueOk x v := by
  obtain ⟨service, -, hpair⟩ := List.mem_map.mp (Table.mem_of_get?_ofList h)
  obtain ⟨-, rfl⟩ := Prod.mk.inj hpair
  trivial

lemma fits_start : Fits (startScene services) [] (.start services sink) where
  inputs := rfl
  recorded := .empty
  invariant := by
    have hlabel : ∀ {f : FrameId} {y : Region},
        (startScene services).labels[f]? ≠ some (some y) := by
      intro f y h
      cases f <;> cases h
    refine ⟨⟨⟨rfl, rfl, fun f y _ h => absurd h hlabel, fun f y h => absurd h hlabel, ?_, ?_⟩, ?_⟩,
      .value (q := .expression) (S := []) trivial ⟨?_, ?_⟩ .value⟩
    · intro f name v hv
      have hpush := Frames.own?_push Frames.empty (Service.table services) f name
      rw [show (Session.start services sink).machine.world.frames.own? f name = _ from hpush] at hv
      split at hv
      · exact valueOk_table hv
      · cases hv
    · intro owner name v hv
      cases hv
    · exact Nat.one_pos
    · intro d l name hl
      cases hl
    · intro f l name _ hl
      cases hl

/-- Where nothing waits, the environment is that of the globals. -/
lemma Fits.env_eq {x : Scene} (h : Fits x inputs s) (hs : s.machine.isHalted) :
    s.machine.pending = [] ∧ s.machine.env = Env.globals := by
  have hpending : s.machine.pending = [] := by
    unfold isHalted at hs
    split at hs <;> simp_all
  have hwaits : ∀ {q S}, Waits x q s.machine.env S s.machine.pending →
      s.machine.env = Env.globals := by
    intro q S hw
    rw [hpending] at hw
    generalize s.machine.env = env at hw
    cases hw with
    | value => rfl
    | finish => rfl
    | ofDeclaration hw => cases hw
  refine ⟨hpending, ?_⟩
  have hruns := h.invariant.runs
  unfold isHalted at hs
  split at hs
  · rename_i hc
    rw [hc] at hruns
    cases hruns with
    | value _ _ hw => exact hwaits hw
  · rename_i hc
    rw [hc] at hruns
    cases hruns with
    | exit _ hw => exact hwaits hw
  · cases hs

end Lox.Session
