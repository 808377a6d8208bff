import Lox.Proofs.Machine.Faults
import Lox.Proofs.Session.Course

/-!
Frames mirror scopes, at every moment of a session.

One labelling of the frames does for the whole course: a frame is an activation of the same scope
from its creation on. So where the survey found a name some scopes outward, the machine finds the
activation of that very scope as many frames outward.
-/

namespace Lox

open Scope

namespace Machine

/-- The node that a machine takes up. -/
def Control.node? : Control → Option Node
  | .eval e => some (.expr e)
  | .exec d => some (.stmt d)
  | .execAll body => some (.stmts body)
  | _ => none

variable {x : Scene} {m : Machine} {id : NodeId} {name : Token}

/-- What is taken up is placed in the current environment. -/
lemma Invariant.node (h : Invariant x m) {n : Node} (hn : m.control.node? = some n) :
    ∃ S, Placed x m.env S n := by
  have hruns := h.runs
  cases hc : m.control with
  | eval e =>
    rw [hc] at hn hruns
    obtain rfl := Option.some.inj hn
    cases hruns with
    | eval hp => exact ⟨_, hp⟩
  | exec d =>
    rw [hc] at hn hruns
    obtain rfl := Option.some.inj hn
    cases hruns with
    | exec hp => exact ⟨_, hp⟩
  | execAll body =>
    rw [hc] at hn hruns
    obtain rfl := Option.some.inj hn
    cases hruns with
    | execAll hp => exact ⟨_, hp⟩
  | value v => rw [hc] at hn; cases hn
  | exit e => rw [hc] at hn; cases hn

/-- A variable is read or written for an expression that is placed in the current environment. An
assignment has its value when it writes. -/
lemma Invariant.access (h : Invariant x m) (ha : m.accesses? = some (id, name)) :
    ∃ e S, refers? e = some (id, name) ∧ Placed x m.env S (.expr e) ∧ Synced x m.env S ∧
      ∀ value, e = .assign id name value → ∃ ps, m.pending = .assign id name :: ps := by
  obtain ⟨control, ps, env, depth, w⟩ := m
  have hruns := h.runs
  unfold accesses? at ha
  split at ha
  · rename_i hc
    obtain ⟨rfl, rfl⟩ := Prod.mk.inj (Option.some.inj ha)
    rw [hc] at hruns
    cases hruns with
    | eval hp hs =>
      refine ⟨_, _, rfl, hp, hs, fun value he => ?_⟩
      cases he
  · rename_i hc
    obtain ⟨rfl, rfl⟩ := Prod.mk.inj (Option.some.inj ha)
    rw [hc] at hruns
    cases hruns with
    | eval hp hs =>
      refine ⟨_, _, rfl, hp, hs, fun value he => ?_⟩
      cases he
  · rename_i hc hpending
    obtain ⟨rfl, rfl⟩ := Prod.mk.inj (Option.some.inj ha)
    rw [hc, hpending] at hruns
    cases hruns with
    | value _ hs hw =>
      cases hw with
      | operand hp =>
        obtain ⟨e, hp⟩ := hp
        exact ⟨_, _, rfl, hp, hs, fun _ _ => ⟨_, hpending⟩⟩
      | head hp => exact hp.elim
      | ofDeclaration hw => cases hw
  · cases ha

end Machine

namespace Session

open Machine

/-- How a moment of a session, after some inputs were accepted, looks under a labelling of its
frames. -/
structure Depicts (labels : Labels) (inputs : List Grammar.Input) (s : Session) : Prop where
  length : s.machine.world.frames.next ≤ labels.length
  /-- The frame of the globals is an activation of no scope. -/
  globals : labels[0]? = some none
  /-- An activation binds only names that are declared directly in its scope, -/
  declared : ∀ f x name, labels[f]? = some (some x) → s.machine.world.frames.binds name f →
    x.Declares name
  /-- and around methods exactly `this`. -/
  this : ∀ f x, f < s.machine.world.frames.next → labels[f]? = some (some x) → x.IsThis →
    ∀ name, s.machine.world.frames.binds name f ↔ name = "this"
  /-- Where a node is taken up, the survey came to it with just the scopes open whose activations
  make up the environment. -/
  node : ∀ n, s.machine.control.node? = some n → ∃ xs ctx v, Visited inputs xs n ctx v ∧
    Bounds xs v.layers ∧ Mirrors labels s.machine.env xs
  /-- A variable is looked for in the activation of the scope where the survey found its name. -/
  reference : ∀ id name d, s.machine.accesses? = some (id, name) → s.distances[id]? = some d →
    ∃ e xs ctx v x f, refers? e = some (id, name) ∧ Visited inputs xs (.expr e) ctx v ∧
      v.depth? name.lexeme = some d ∧ xs[d]? = some x ∧ x.Declares name.lexeme ∧
      s.machine.env[d]? = some f ∧ labels[f]? = some (some x)

variable {services : List Service} {sink : Sink} {s s' : Session} {past : List Session}
  {inputs inputs' : List Grammar.Input} {labels labels' : Labels}

/-! ### Later labels and inputs -/

lemma Depicts.mono (h : Depicts labels inputs s) (hl : labels <+: labels')
    (hi : inputs ⊆ inputs') : Depicts labels' inputs' s := by
  -- later labels are for frames that are not there yet
  have hold : ∀ {f l}, f < s.machine.world.frames.next → labels'[f]? = some l →
      labels[f]? = some l := by
    intro f l hf hlabel
    have hlt : f < labels.length := lt_of_lt_of_le hf h.length
    obtain ⟨more, rfl⟩ := hl
    rwa [List.getElem?_append_left hlt] at hlabel
  constructor
  · exact h.length.trans hl.length_le
  · exact label_of_grown h.globals hl
  · intro f x name hlabel hbinds
    exact h.declared f x name (hold (Frames.lt_next_of_binds hbinds) hlabel) hbinds
  · intro f x hf hlabel
    exact h.this f x hf (hold hf hlabel)
  · intro n hn
    obtain ⟨xs, ctx, v, hv, hb, hm⟩ := h.node n hn
    exact ⟨xs, ctx, v, hv.mono hi, hb, hm.mono hl⟩
  · intro id name d ha hd
    obtain ⟨e, xs, ctx, v, x, f, hr, hv, hdepth, hx, hdecl, hf, hlabel⟩ :=
      h.reference id name d ha hd
    exact ⟨e, xs, ctx, v, x, f, hr, hv.mono hi, hdepth, hx, hdecl, hf, label_of_grown hlabel hl⟩

/-! ### Single moments -/

lemma bounds_of_visited {x : Scene} {xs : List Region} {n : Node} {ctx : Context} {v : Survey}
    (hv : Visited x.inputs xs n ctx v) : Bounds xs v.layers :=
  (hv.sound x.accepted).layers.of_within (leads_survey n ctx v).layers

/-- A name that is found some layers outward is declared in the scope of that layer. -/
lemma declares_of_depth? {xs : List Region} {v : Survey} (hb : Bounds xs v.layers) {name : String}
    {d : ℕ} (hd : v.depth? name = some d) : ∃ x, xs[d]? = some x ∧ x.Declares name := by
  obtain ⟨hlt, hcontains, -⟩ := List.findIdx?_eq_some_iff_getElem.mp hd
  have hlength : d < xs.length := hb.length_eq ▸ hlt
  exact ⟨xs[d], List.getElem?_eq_getElem hlength, hb.get hlength hlt name hcontains⟩

lemma Fits.depicts {x : Scene} (h : Fits x inputs s) : Depicts x.labels inputs s := by
  have hworld := h.invariant.world
  obtain rfl := h.inputs
  constructor
  · exact hworld.length.ge
  · exact x.globals
  · exact hworld.declared
  · exact fun f y _ => hworld.this f y
  · intro n hn
    obtain ⟨S, xs, ctx, v, hv, hm, -⟩ := h.invariant.node hn
    exact ⟨xs, ctx, v, hv, bounds_of_visited hv, hm⟩
  · intro id name d ha hd
    obtain ⟨e, S, hr, ⟨xs, ctx, v, hv, hm, rfl⟩, -, -⟩ := h.invariant.access ha
    rw [h.recorded.getElem?_eq hv hr, ← Survey.depth?_eq] at hd
    obtain ⟨y, hy, hdecl⟩ := declares_of_depth? (bounds_of_visited hv) hd
    obtain ⟨f, hf, hlabel⟩ := hm.getElem?_eq hy
    exact ⟨e, xs, ctx, v, y, f, hr, hv, hd, hy, hdecl, hf, hlabel⟩

/-! ### From moment to moment -/

lemma Fits.step {x : Scene} (h : Fits x inputs s) (hhost : s.host.AddsNoCode) :
    ∃ y, Fits y inputs s.step ∧ x.labels <+: y.labels := by
  obtain ⟨y, hy, hl, hinv⟩ := h.invariant.step (s := ⟨s.distances, s.host⟩) hhost
  exact ⟨y, ⟨h.recorded, hinv, hy.trans h.inputs⟩, hl⟩

lemma Fits.refused {x : Scene} (h : Fits x inputs s) (hr : Refusal s s') : Fits x inputs s' where
  recorded := by
    rcases hr.distances with hd | ⟨input, hread, hd⟩
    · rw [hd]
      exact h.recorded.skip hr.nextId
    · rw [hd]
      exact h.recorded.add hread
  invariant := hr.machine ▸ h.invariant
  inputs := h.inputs

/-- A scene in which one more input was accepted. -/
def moreInputs (x : Scene) (input : Grammar.Input) (hinput : Accepted input) : Scene :=
  { x with
    inputs := input :: x.inputs
    accepted := List.forall_mem_cons.mpr ⟨hinput, x.accepted⟩ }

lemma grows_moreInputs {x : Scene} {input : Grammar.Input} {hinput : Accepted input} :
    x.Grows 0 (moreInputs x input hinput) :=
  ⟨List.subset_cons_self .., List.prefix_rfl, fun _ _ h => h, fun _ _ _ h => h⟩

lemma Fits.accepted {x : Scene} {input : Grammar.Input} {mode : Grammar.Mode} {source : String}
    (h : Fits x inputs s) (hs : s.machine.isHalted) (ha : s.accept mode source = (s', .ok input)) :
    ∃ y, Fits y (input :: inputs) s' ∧ x.labels <+: y.labels := by
  obtain ⟨hread, hclean, hs'⟩ := accept_eq_ok ha
  obtain ⟨-, henv⟩ := h.env_eq hs
  have hinput : Accepted input := ⟨hread.orderly, hclean, hread.admissible⟩
  have hrecorded := h.recorded.accept hread hclean
  have hroot : Placed (moreInputs x input hinput) Env.globals [] (rootOf input) :=
    ⟨[], .outermost, .empty, .root (List.mem_cons_self ..), .globals, rfl⟩
  have hsync : Synced (moreInputs x input hinput) Env.globals [] := by
    constructor
    · intro d l name hl
      cases hl
    · intro f l name _ hl
      cases hl
  have hold := h.invariant.world
  have hworld : WorldOk (moreInputs x input hinput) s.machine.world :=
    ⟨hold.frames, hold.length, hold.declared, hold.this,
      fun f name v hv => (hold.values f name v hv).mono grows_moreInputs,
      fun owner name v hv => (hold.fields owner name v hv).mono grows_moreInputs⟩
  rw [hs']
  refine ⟨moreInputs x input hinput, ⟨hrecorded, ⟨⟨hworld, h.invariant.head⟩, ?_⟩,
    congrArg (input :: ·) h.inputs⟩, List.prefix_rfl⟩
  unfold load
  dsimp only
  rw [henv]
  cases input with
  | expression e => exact .eval hroot hsync .value
  | statements body =>
    have hwaits : Waits (moreInputs x (.statements body) hinput) .body Env.globals [] [] := .finish
    exact .execAll hroot hsync hwaits

lemma host_of_course (h : Course services sink (s :: past) inputs) :
    s.host = Service.host services := by
  generalize hss : s :: past = ss at h
  induction h generalizing s past with
  | start => cases hss; rfl
  | step _ ih =>
    cases hss
    have hs := ih rfl
    exact hs
  | refused _ _ ha ih =>
    cases hss
    exact (accept_eq_error ha).host.trans (ih rfl)
  | accepted _ _ ha ih =>
    cases hss
    obtain ⟨-, -, hs'⟩ := accept_eq_ok ha
    have hs := ih rfl
    rw [hs']
    exact hs

/-- There is a scene for the last moment whose labelling does for all moments before. -/
lemma Course.fits (hhost : (Service.host services).AddsNoCode)
    (h : Course services sink past inputs) : ∃ x s before, past = s :: before ∧
      Fits x inputs s ∧ ∀ t ∈ past, Depicts x.labels inputs t := by
  -- a scene for the next moment does for all moments before, if its labels go on from theirs
  have hnext : ∀ {x y : Scene} {s s' : Session} {past inputs inputs'}, x.labels <+: y.labels →
      inputs ⊆ inputs' → Fits y inputs' s' → (∀ t ∈ s :: past, Depicts x.labels inputs t) →
      ∃ x' t before, s' :: s :: past = t :: before ∧ Fits x' inputs' t ∧
        ∀ t ∈ s' :: s :: past, Depicts x'.labels inputs' t := by
    intro x y s s' past inputs inputs' hl hi hy hpast
    refine ⟨y, s', s :: past, rfl, hy, List.forall_mem_cons.mpr ⟨hy.depicts, fun t ht => ?_⟩⟩
    exact (hpast t ht).mono hl hi
  induction h with
  | start => exact ⟨_, _, _, rfl, fits_start, List.forall_mem_singleton.mpr fits_start.depicts⟩
  | step h ih =>
    obtain ⟨x, s, before, hs, hx, hpast⟩ := ih
    cases hs
    obtain ⟨y, hy, hl⟩ := hx.step (host_of_course h ▸ hhost)
    exact hnext hl (List.Subset.refl _) hy hpast
  | refused _ _ ha ih =>
    obtain ⟨x, s, before, hs, hx, hpast⟩ := ih
    cases hs
    exact hnext List.prefix_rfl (List.Subset.refl _) (hx.refused (accept_eq_error ha)) hpast
  | accepted _ hhalted ha ih =>
    obtain ⟨x, s, before, hs, hx, hpast⟩ := ih
    cases hs
    obtain ⟨y, hy, hl⟩ := hx.accepted hhalted ha
    exact hnext hl (List.subset_cons_self ..) hy hpast

lemma addsNoCode_clock (now : Float) : (Service.host [.clock now]).AddsNoCode := by
  intro name args v h
  unfold Service.host at h
  split at h
  · rename_i service hfind
    obtain rfl := List.mem_singleton.mp (List.mem_of_find?_eq_some hfind)
    exact .inl (Except.ok.inj h ▸ trivial)
  · cases h

/-- Under one labelling of the frames as activations of scopes, the environment at every moment of
a session consists of an activation of each scope that was open where the survey came to the node
at hand, innermost first, and then of the frame of the globals. -/
theorem frames_mirror_scopes (hhost : (Service.host services).AddsNoCode)
    (h : Course services sink past inputs) : ∃ labels, ∀ s ∈ past, Depicts labels inputs s := by
  obtain ⟨x, s, before, -, -, hpast⟩ := h.fits hhost
  exact ⟨x.labels, hpast⟩

/-- A local variable of a block is declared and read. -/
theorem frames_mirror_scopes_of_block : ∃ (past : List Session) (input : Grammar.Input) (labels : _),
    20 ≤ past.length ∧ ∀ s ∈ past, Depicts labels [input] s := by
  obtain ⟨more, input, hlength, h⟩ := Course.first [.clock 0] .unlimited .program
    "\x7b var a = nil; print a; \x7d" (by decide +kernel) 20
  obtain ⟨labels, hlabels⟩ := frames_mirror_scopes (addsNoCode_clock 0) h
  exact ⟨_, input, labels, hlength.trans (Nat.le_succ _), hlabels⟩

end Session

end Lox
