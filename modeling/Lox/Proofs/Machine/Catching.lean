import Lox.Proofs.Machine.Faults
import Lox.Proofs.Machine.Steps
import Lox.Proofs.Scope.Parts

/-!
Where a `break` and a `return` are caught.

All that a machine is about to run is part of what the innermost loop or call in progress runs, and
else of an input. So a `break` finds the loop it stands in before any call, and a `return` the call
of the function it stands in.
-/

namespace Lox.Machine

open Scope

/-! ### Loops and calls in progress -/

/-- Whether this is a round of a loop in progress. -/
def Pending.isLoop : Pending → Bool
  | .loopBody .. => true
  | _ => false

/-- Whether this is a call of a function in progress. -/
def Pending.isCall : Pending → Bool
  | .leaveCall .. => true
  | _ => false

/-- The statements of the innermost loop or call in progress; outside of both, those of all
inputs. -/
def ground (inputs : List Grammar.Input) : List Pending → List Stmt
  | [] => inputs.flatMap bodyOf
  | .loopBody _ body :: _ => [body]
  | .leaveCall _ c :: _ => c.decl.body
  | _ :: ps => ground inputs ps

/-- A statement is run as part of the innermost loop or call in progress. -/
def Stands (inputs : List Grammar.Input) (ps : List Pending) (d : Stmt) : Prop :=
  ∃ b ∈ ground inputs ps, d.Part false b

/-- The statements that wait. -/
def Pending.statements : Pending → List Stmt
  | .branch t e => t :: e.toList
  | .loopTest c body => [.loop c body]
  | .loopBody c body => [.loop c body]
  | .sequence rest => rest
  | _ => []

/-- A way out of a loop passes no call before a loop. -/
def InLoop (ps : List Pending) : Prop :=
  ∃ qs c body rest, ps = qs ++ .loopBody c body :: rest ∧ ∀ q ∈ qs, ¬q.isLoop ∧ ¬q.isCall

/-- There is a call in progress. -/
def InCall (ps : List Pending) : Prop :=
  ∃ qs env c rest, ps = qs ++ .leaveCall env c :: rest ∧ ∀ q ∈ qs, ¬q.isCall

/-- Where a way out is raised there is something that catches it. -/
def Exit.Lodged (ps : List Pending) : Exit → Prop
  | .leaveLoop => InLoop ps
  | .leaveCall _ => InCall ps
  | .fail _ => True

/-- All statements that wait stand where they will run. -/
def Lodged (inputs : List Grammar.Input) : List Pending → Prop
  | [] => True
  | p :: ps => (∀ d ∈ p.statements, Stands inputs ps d) ∧
      (∀ v, p = .giveBack → (Exit.leaveCall v).Lodged ps) ∧ Lodged inputs ps

/-- So does what is in hand. -/
def Control.Lodged (inputs : List Grammar.Input) (ps : List Pending) : Control → Prop
  | .exec d => Stands inputs ps d
  | .execAll body => ∀ d ∈ body, Stands inputs ps d
  | .exit x => x.Lodged ps
  | _ => True

/-- What holds of a machine between two steps. -/
structure Lodging (inputs : List Grammar.Input) (m : Machine) : Prop where
  control : m.control.Lodged inputs m.pending
  pending : Lodged inputs m.pending

/-- The functions that are being called leave no `break` to their callers. -/
def CallsOk (ps : List Pending) : Prop :=
  ∀ env c, .leaveCall env c ∈ ps → ∀ b ∈ c.decl.body, Grammar.Admissible false b

variable {inputs : List Grammar.Input} {ps : List Pending} {p : Pending} {d : Stmt} {s : Setting}
  {m : Machine} {x : Scene}

/-! ### What stands where -/

lemma ground_cons (hl : ¬p.isLoop) (hc : ¬p.isCall) :
    ground inputs (p :: ps) = ground inputs ps := by
  cases p with
  | loopBody => exact absurd rfl hl
  | leaveCall => exact absurd rfl hc
  | _ => rfl

lemma Stands.cons (h : Stands inputs ps d) (hl : ¬p.isLoop) (hc : ¬p.isCall) :
    Stands inputs (p :: ps) d := by
  unfold Stands
  rwa [ground_cons hl hc]

lemma Stands.part {a : Stmt} (h : Stands inputs ps d) (ha : a.Part false d) :
    Stands inputs ps a := by
  obtain ⟨b, hb, hpart⟩ := h
  exact ⟨b, hb, ha.trans hpart⟩

/-- A `break` stands in the innermost loop, and no call is in progress in that loop. -/
lemma Stands.break_ (hinputs : ∀ input ∈ inputs, Accepted input) (hcalls : CallsOk ps)
    {keyword : Token} (h : Stands inputs ps (.breakLoop keyword)) :
    ∃ qs c body rest, ps = qs ++ .loopBody c body :: rest ∧
      (∀ q ∈ qs, ¬q.isLoop ∧ ¬q.isCall) ∧ (Stmt.breakLoop keyword).Part false body := by
  induction ps with
  | nil =>
    obtain ⟨b, hb, hpart⟩ := h
    obtain ⟨input, hinput, hb⟩ := List.mem_flatMap.mp hb
    exact absurd rfl (hpart.not_break ((hinputs input hinput).admissible b hb))
  | cons p ps ih =>
    -- the body of a loop or of a call is as far as the `break` reaches
    by_cases hl : p.isLoop
    · cases p with
      | loopBody c body =>
        obtain ⟨b, hb, hpart⟩ := h
        obtain rfl := List.mem_singleton.mp hb
        exact ⟨[], c, b, ps, rfl, fun q hq => absurd hq List.not_mem_nil, hpart⟩
      | _ => cases hl
    · by_cases hc : p.isCall
      · cases p with
        | leaveCall env c =>
          obtain ⟨b, hb, hpart⟩ := h
          exact absurd rfl (hpart.not_break (hcalls env c (List.mem_cons_self ..) b hb))
        | _ => cases hc
      · have hps : CallsOk ps := fun env c hmem => hcalls env c (List.mem_cons_of_mem _ hmem)
        obtain ⟨qs, c, body, rest, rfl, hqs, hpart⟩ :=
          ih hps (by rwa [Stands, ground_cons hl hc] at h)
        exact ⟨p :: qs, c, body, rest, rfl, List.forall_mem_cons.mpr ⟨⟨hl, hc⟩, hqs⟩, hpart⟩

/-- Whatever is run is part of the innermost call, with all loops in progress there, or else of an
input. -/
lemma Stands.call (hps : Lodged inputs ps) (h : Stands inputs ps d) :
    (∃ qs env c rest, ps = qs ++ .leaveCall env c :: rest ∧ (∀ q ∈ qs, ¬q.isCall) ∧
      ∃ b ∈ c.decl.body, d.Part true b) ∨
    ∃ input ∈ inputs, ∃ b ∈ bodyOf input, d.Part true b := by
  induction ps generalizing d with
  | nil =>
    obtain ⟨b, hb, hpart⟩ := h
    obtain ⟨input, hinput, hb⟩ := List.mem_flatMap.mp hb
    exact .inr ⟨input, hinput, b, hb, hpart.in_loops⟩
  | cons p ps ih =>
    obtain ⟨hcode, -, hps⟩ := hps
    by_cases hc : p.isCall
    · cases p with
      | leaveCall env c =>
        obtain ⟨b, hb, hpart⟩ := h
        exact .inl ⟨[], env, c, ps, rfl, fun q hq => absurd hq List.not_mem_nil, b, hb,
          hpart.in_loops⟩
      | _ => cases hc
    · -- What is part of the body of a loop is part of the loop, which itself stands further out.
      have houter : ∃ d', Stands inputs ps d' ∧ d.Part true d' := by
        by_cases hl : p.isLoop
        · cases p with
          | loopBody c body =>
            obtain ⟨b, hb, hpart⟩ := h
            obtain rfl := List.mem_singleton.mp hb
            exact ⟨.loop c b, hcode _ (List.mem_singleton_self _), .loop rfl hpart.in_loops⟩
          | _ => cases hl
        · exact ⟨d, by rwa [Stands, ground_cons hl hc] at h, .refl⟩
      obtain ⟨d', hd', hpart⟩ := houter
      rcases ih hps hd' with ⟨qs, env, c, rest, rfl, hqs, b, hb, hd⟩ | ⟨input, hinput, b, hb, hd⟩
      · exact .inl ⟨p :: qs, env, c, rest, rfl, List.forall_mem_cons.mpr ⟨hc, hqs⟩, b, hb,
          hpart.trans hd⟩
      · exact .inr ⟨input, hinput, b, hb, hpart.trans hd⟩

/-- A `return` stands in the function that is called. -/
lemma Stands.return_ (hinputs : ∀ input ∈ inputs, Accepted input) (hps : Lodged inputs ps)
    {keyword : Token} {value : Option Expr} (h : Stands inputs ps (.returnFrom keyword value)) :
    ∃ qs env c rest, ps = qs ++ .leaveCall env c :: rest ∧ (∀ q ∈ qs, ¬q.isCall) ∧
      ∃ b ∈ c.decl.body, (Stmt.returnFrom keyword value).Part true b := by
  refine (h.call hps).resolve_right ?_
  rintro ⟨input, hinput, b, hb, hpart⟩
  exact not_return_of_part hinputs hinput hb hpart rfl

/-! ### From step to step -/

lemma Lodged.cons (h : Lodged inputs ps) (hcode : p.statements = []) (hp : p ≠ .giveBack) :
    Lodged inputs (p :: ps) :=
  ⟨fun _ hd => absurd (hcode ▸ hd) List.not_mem_nil, fun _ hback => absurd hback hp, h⟩

lemma Lodged.cons_code (h : Lodged inputs ps) (hcode : ∀ d ∈ p.statements, Stands inputs ps d)
    (hp : p ≠ .giveBack) : Lodged inputs (p :: ps) :=
  ⟨hcode, fun _ hback => absurd hback hp, h⟩

section
variable {v : Value} {c : Closure} {args : List Value} {site name : Token} {e : Expr}

lemma lodging_give (h : Lodged inputs m.pending) : Lodging inputs (m.give v) := ⟨trivial, h⟩

lemma lodging_fail {f : Failure} (h : Lodged inputs m.pending) : Lodging inputs (m.fail f) :=
  ⟨trivial, h⟩

lemma lodging_await (h : Lodged inputs m.pending) (hcode : p.statements = [])
    (hp : p ≠ .giveBack) : Lodging inputs (m.await p (.eval e)) :=
  ⟨trivial, h.cons hcode hp⟩

lemma lodging_giveFound {found : Option Value} (h : Lodged inputs m.pending) :
    Lodging inputs (m.giveFound name found) := by
  cases found with
  | none => exact lodging_fail h
  | some v => exact lodging_give h

lemma lodging_writeIn {holder : Option FrameId} (h : Lodged inputs m.pending) :
    Lodging inputs (m.writeIn holder name v) := by
  cases holder with
  | none => exact lodging_fail h
  | some f => exact lodging_give h

lemma lodging_giveResult {r : Except Failure Value} (h : Lodged inputs m.pending) :
    Lodging inputs (m.giveResult r) := by
  cases r with
  | error f => exact lodging_fail h
  | ok v => exact lodging_give h

/-- All of a function body stands in its call. -/
lemma lodging_enter (h : Lodged inputs m.pending) : Lodging inputs (m.enter c args site) := by
  unfold enter
  split
  · exact lodging_fail h
  · exact ⟨fun d hd => ⟨d, hd, .refl⟩, h.cons rfl Pending.noConfusion⟩

lemma lodging_construct {k : ClassInfo} (h : Lodged inputs m.pending) :
    Lodging inputs (m.construct k args site) := by
  unfold construct
  dsimp only
  split
  · exact lodging_give h
  · exact lodging_enter (h.cons rfl Pending.noConfusion)

lemma lodging_call {callee : Value} (h : Lodged inputs m.pending) :
    Lodging inputs (m.call s callee args site) := by
  unfold call
  split
  · exact lodging_fail h
  · split
    · unfold invoke
      split
      · split
        · exact lodging_give h
        · exact lodging_fail h
      · exact lodging_enter h
      · exact lodging_construct h
      · exact lodging_fail h
    · exact lodging_fail h

lemma lodging_nextArgument {callee : Value} {rest : List Expr} (h : Lodged inputs m.pending) :
    Lodging inputs (m.nextArgument s callee site args rest) := by
  cases rest with
  | nil => exact lodging_call h
  | cons e rest => exact lodging_await h rfl Pending.noConfusion

lemma lodging_readMember {owner : ℕ} {object : Value} {method? : Option Closure}
    (h : Lodged inputs m.pending) : Lodging inputs (m.readMember owner object method? name) := by
  unfold readMember
  split
  · exact lodging_give h
  · unfold giveMethod
    dsimp only
    split
    · exact lodging_enter h
    · exact lodging_give h
  · exact lodging_fail h

lemma lodging_readProperty {object : Value} (h : Lodged inputs m.pending) :
    Lodging inputs (m.readProperty object name) := by
  cases object with
  | object => exact lodging_readMember h
  | classValue => exact lodging_readMember h
  | _ => exact lodging_fail h

lemma lodging_takeTarget {object : Value} (h : Lodged inputs m.pending) :
    Lodging inputs (m.takeTarget object name e) := by
  cases object with
  | object => exact lodging_await h rfl Pending.noConfusion
  | classValue => exact lodging_await h rfl Pending.noConfusion
  | _ => exact lodging_fail h

lemma lodging_leave {env : Env} (h : Lodged inputs m.pending) :
    Lodging inputs (m.leave env c v) := by
  unfold leave
  dsimp only
  split
  · split
    · exact lodging_give h
    · exact lodging_fail h
  · exact lodging_give h

lemma lodging_printLine (h : Lodged inputs m.pending) : Lodging inputs (m.printLine v) := by
  unfold printLine
  dsimp only
  split
  · exact lodging_give h
  · exact lodging_fail h

lemma lodging_evalStep (h : Lodged inputs m.pending) : Lodging inputs (m.evalStep s e) := by
  cases e with
  | literal l => exact lodging_give h
  | group e => exact ⟨trivial, h⟩
  | reference id name => exact lodging_giveFound h
  | this id keyword => exact lodging_giveFound h
  | _ => exact lodging_await h rfl Pending.noConfusion

end

lemma lodging_execStep (hinputs : ∀ input ∈ inputs, Accepted input) (hcalls : CallsOk m.pending)
    (hd : Stands inputs m.pending d) (h : Lodged inputs m.pending) :
    Lodging inputs (m.execStep d) := by
  have hpart : ∀ {a : Stmt}, a.Part false d → Stands inputs m.pending a := hd.part
  cases d with
  | expression e => exact lodging_await h rfl Pending.noConfusion
  | print e => exact lodging_await h rfl Pending.noConfusion
  | declare name initial =>
    cases initial with
    | none => exact lodging_give h
    | some e => exact lodging_await h rfl Pending.noConfusion
  | block body =>
    refine ⟨fun b hb => ?_, h.cons rfl Pending.noConfusion⟩
    exact (hpart (.block hb .refl)).cons Bool.noConfusion Bool.noConfusion
  | branch c t e =>
    exact ⟨trivial, h.cons_code (fun b hb => hpart (.branch hb .refl)) Pending.noConfusion⟩
  | loop c body =>
    have hloop : ∀ b ∈ (Pending.loopTest c body).statements, Stands inputs m.pending b :=
      List.forall_mem_singleton.mpr hd
    exact ⟨trivial, h.cons_code hloop Pending.noConfusion⟩
  | breakLoop keyword =>
    obtain ⟨qs, c, body, rest, hps, hqs, -⟩ := hd.break_ hinputs hcalls
    exact ⟨⟨qs, c, body, rest, hps, hqs⟩, h⟩
  | function d => exact lodging_give h
  | returnFrom keyword value =>
    obtain ⟨qs, env, c, rest, hps, hqs, -⟩ := hd.return_ hinputs h
    have hcall : InCall m.pending := ⟨qs, env, c, rest, hps, hqs⟩
    cases value with
    | none => exact ⟨hcall, h⟩
    | some e => exact ⟨trivial, fun d hd => absurd hd List.not_mem_nil, fun _ _ => hcall, h⟩
  | classDecl name methods statics => exact lodging_give h

lemma lodging_receive {v : Value} (h : Lodged inputs (p :: m.pending)) :
    Lodging inputs (m.receive s p v) := by
  obtain ⟨hcode, hback, h⟩ := h
  cases p with
  | unary op => exact lodging_giveResult h
  | binaryLeft op r => exact lodging_await h rfl Pending.noConfusion
  | binaryRight l op => exact lodging_giveResult h
  | logical op r =>
    unfold receive
    dsimp only
    split
    · exact lodging_give h
    · exact ⟨trivial, h⟩
  | conditional t e => exact ⟨trivial, h⟩
  | assign id name => exact lodging_writeIn h
  | callee paren arguments => exact lodging_nextArgument h
  | argument callee paren found rest => exact lodging_nextArgument h
  | property name => exact lodging_readProperty h
  | target name value => exact lodging_takeTarget h
  | print => exact lodging_printLine h
  | branch t e =>
    unfold receive
    dsimp only
    split
    · exact ⟨hcode t (List.mem_cons_self ..), h⟩
    · cases e with
      | none => exact lodging_give h
      | some e => exact ⟨hcode e (List.mem_cons_of_mem _ (List.mem_singleton_self e)), h⟩
  | loopTest c body =>
    unfold receive
    dsimp only
    split
    · exact ⟨⟨body, List.mem_singleton_self body, .refl⟩, h.cons_code hcode Pending.noConfusion⟩
    · exact lodging_give h
  | loopBody c body => exact ⟨trivial, h.cons_code hcode Pending.noConfusion⟩
  | giveBack => exact ⟨hback v rfl, h⟩
  | sequence rest => exact ⟨hcode, h⟩
  | leaveCall env c => exact lodging_leave h
  | _ => exact lodging_give h

/-- A way out that is not caught passes on to what catches it further out. -/
lemma Exit.Lodged.tail {e : Exit} (h : e.Lodged (p :: ps))
    (hp : ∀ v, ¬(e = .leaveLoop ∧ p.isLoop) ∧ ¬(e = .leaveCall v ∧ p.isCall)) : e.Lodged ps := by
  cases e with
  | leaveLoop =>
    obtain ⟨qs, c, body, rest, heq, hqs⟩ := h
    cases qs with
    | nil =>
      obtain ⟨rfl, -⟩ := List.cons.inj heq
      exact absurd ⟨rfl, rfl⟩ (hp .nil).1
    | cons q qs =>
      obtain ⟨-, rfl⟩ := List.cons.inj heq
      exact ⟨qs, c, body, rest, rfl, fun q' hq' => hqs q' (List.mem_cons_of_mem _ hq')⟩
  | leaveCall v =>
    obtain ⟨qs, env, c, rest, heq, hqs⟩ := h
    cases qs with
    | nil =>
      obtain ⟨rfl, -⟩ := List.cons.inj heq
      exact absurd ⟨rfl, rfl⟩ (hp v).2
    | cons q qs =>
      obtain ⟨-, rfl⟩ := List.cons.inj heq
      exact ⟨qs, env, c, rest, rfl, fun q' hq' => hqs q' (List.mem_cons_of_mem _ hq')⟩
  | fail f => trivial

lemma lodging_unwind {e : Exit} (hc : m.control = .exit e) (he : e.Lodged (p :: m.pending))
    (h : Lodged inputs m.pending) : Lodging inputs (m.unwind p e) := by
  obtain ⟨control, pending, env, depth, w⟩ := m
  obtain rfl : control = .exit e := hc
  have hpass : (∀ v, ¬(e = .leaveLoop ∧ p.isLoop) ∧ ¬(e = .leaveCall v ∧ p.isCall)) →
      ∀ env' depth', Lodging inputs ⟨.exit e, pending, env', depth', w⟩ :=
    fun hp _ _ => ⟨he.tail hp, h⟩
  cases p with
  | loopBody c body =>
    cases e with
    | leaveLoop => exact lodging_give h
    | _ => exact hpass (by simp [Pending.isCall]) _ _
  | leaveCall env' c =>
    cases e with
    | leaveCall v => exact lodging_leave h
    | _ => exact hpass (by simp [Pending.isLoop]) _ _
  | _ => exact hpass (by simp [Pending.isCall, Pending.isLoop]) _ _

/-- One step keeps all statements where they belong. -/
theorem Lodging.step (h : Lodging inputs m) (hinputs : ∀ input ∈ inputs, Accepted input)
    (hcalls : CallsOk m.pending) : Lodging inputs (m.step s) := by
  obtain ⟨control, pending, env, depth, w⟩ := m
  obtain ⟨hcontrol, hpending⟩ := h
  cases control with
  | eval e => exact lodging_evalStep hpending
  | exec d => exact lodging_execStep hinputs hcalls hcontrol hpending
  | execAll body =>
    cases body with
    | nil => exact lodging_give hpending
    | cons d rest =>
      obtain ⟨hd, hrest⟩ := List.forall_mem_cons.mp hcontrol
      exact ⟨hd.cons Bool.noConfusion Bool.noConfusion,
        hpending.cons_code hrest Pending.noConfusion⟩
  | value v =>
    cases pending with
    | nil => exact ⟨trivial, trivial⟩
    | cons p rest => exact lodging_receive (m := ⟨.value v, rest, env, depth, w⟩) hpending
  | exit e =>
    cases pending with
    | nil => exact ⟨hcontrol, hpending⟩
    | cons p rest =>
      exact lodging_unwind (m := ⟨.exit e, rest, env, depth, w⟩) rfl hcontrol hpending.2.2

/-! ### The way out -/

/-- What does not catch a way out is passed in as many steps, back to the environment and the depth
around it. -/
lemma run_exit {e : Exit} {qs : List Pending} {env : Env} {depth : ℕ} {w : World}
    (hqs : ∀ q ∈ qs, ∀ v, ¬(e = .leaveLoop ∧ q.isLoop) ∧ ¬(e = .leaveCall v ∧ q.isCall)) :
    run s qs.length ⟨.exit e, qs ++ ps, env, depth, w⟩ =
      ⟨.exit e, ps, (homeFrom qs env depth).1, (homeFrom qs env depth).2, w⟩ := by
  induction qs generalizing env depth with
  | nil => rfl
  | cons q qs ih =>
    obtain ⟨hq, hqs⟩ := List.forall_mem_cons.mp hqs
    have hstep : ∃ env' depth', step s ⟨.exit e, q :: qs ++ ps, env, depth, w⟩ =
        ⟨.exit e, qs ++ ps, env', depth', w⟩ ∧
        homeFrom (q :: qs) env depth = homeFrom qs env' depth' := by
      cases q with
      | loopBody c body =>
        cases e with
        | leaveLoop => exact absurd ⟨rfl, rfl⟩ (hq .nil).1
        | _ => exact ⟨_, _, rfl, rfl⟩
      | leaveCall env' c =>
        cases e with
        | leaveCall v => exact absurd ⟨rfl, rfl⟩ (hq v).2
        | _ => exact ⟨_, _, rfl, rfl⟩
      | _ => exact ⟨_, _, rfl, rfl⟩
    obtain ⟨env', depth', hstep, hhome⟩ := hstep
    rw [List.length_cons, run, if_neg (by simp [isHalted]), hstep, ih hqs, hhome]

end Lox.Machine
