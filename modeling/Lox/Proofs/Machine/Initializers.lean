import Lox.Proofs.Machine.Calling
import Lox.Proofs.Machine.Catching
import Lox.Proofs.Machine.Holding

/-!
Initializers, as they run and as they were surveyed.

A function is marked as an initializer where its class is declared, and keeps the mark where it is
bound. The survey goes by the name, and comes to the same functions. So no `return` with a value
stands in a function with the mark, and its call is never given a value back.
-/

namespace Lox

namespace Scope

variable {inputs inputs' : List Grammar.Input} {body : Body} {d : FunctionDecl}

/-- The survey comes to a function as a body of this kind. -/
def Surveyed (inputs : List Grammar.Input) (body : Body) (d : FunctionDecl) : Prop :=
  ∃ xs ctx s, Visited inputs xs (.function body d) ctx s

lemma Surveyed.mono (h : Surveyed inputs body d) (hi : inputs ⊆ inputs') :
    Surveyed inputs' body d := by
  obtain ⟨xs, ctx, s, hv⟩ := h
  exact ⟨xs, ctx, s, hv.mono hi⟩

/-- No `return` with a value stands in an initializer. -/
lemma Surveyed.not_return (h : Surveyed inputs .initializer d)
    (hinputs : ∀ input ∈ inputs, Accepted input) {b : Stmt} (hb : b ∈ d.body) {keyword : Token}
    {e : Expr} : ¬(Stmt.returnFrom keyword (some e)).Part true b := by
  intro hpart
  obtain ⟨xs, ctx, s, hv⟩ := h
  obtain ⟨t, hbody⟩ := (hv.inside .body).each b hb
  obtain ⟨ys, u, hreturn⟩ := hbody.part hpart
  have hclean := (hreturn.sound hinputs).clean
  have hplace : (u.returnPlace { ctx with body := .initializer } keyword (some e)).Clean :=
    (Survey.leads_expr _ e _).clean hclean
  have hcomplain : (u.complain keyword .valueFromInitializer).Clean := hplace
  exact Survey.not_clean_complain hcomplain

end Scope

namespace Machine

open Scope

variable {s : Setting} {m n : Machine} {x : Scene} {inputs inputs' : List Grammar.Input}
  {bound bound' : Closure → Prop} {v o : Value} {c : Closure} {args : List Value} {site : Token}
  {k : ClassInfo} {ps qs : List Pending}

/-! ### The mark -/

/-- A function that has the mark was surveyed as an initializer, and it was bound. -/
def Closure.Rightful (inputs : List Grammar.Input) (bound : Closure → Prop) (c : Closure) : Prop :=
  c.isInitializer → Surveyed inputs .initializer c.decl ∧ bound c

/-- Of the methods of a class just `init` has the mark, and it was surveyed as an initializer. -/
structure ClassInfo.Rightful (inputs : List Grammar.Input) (k : ClassInfo) : Prop where
  methods : ∀ name c, k.methods.get? name = some c →
    (c.isInitializer ↔ name = initName) ∧
      (c.isInitializer → Surveyed inputs .initializer c.decl)
  statics : ∀ name c, k.statics.get? name = some c → ¬c.isInitializer

/-- The functions and classes in a value are marked rightly. -/
def Rightful (inputs : List Grammar.Input) (bound : Closure → Prop) : Value → Prop
  | .function _ c => Closure.Rightful inputs bound c
  | .classValue _ k => ClassInfo.Rightful inputs k
  | .object _ k => ClassInfo.Rightful inputs k
  | _ => True

/-- All functions that a machine holds or calls are marked rightly. -/
structure WellMarked (inputs : List Grammar.Input) (bound : Closure → Prop) (m : Machine) : Prop where
  values : ∀ v, m.Holds v → Rightful inputs bound v
  calls : ∀ c ∈ m.activations, Closure.Rightful inputs bound c

lemma Closure.Rightful.mono (h : Closure.Rightful inputs bound c) (hi : inputs ⊆ inputs')
    (hb : ∀ c, bound c → bound' c) : Closure.Rightful inputs' bound' c := by
  intro hc
  obtain ⟨hsurveyed, hbound⟩ := h hc
  exact ⟨hsurveyed.mono hi, hb c hbound⟩

lemma ClassInfo.Rightful.mono (h : ClassInfo.Rightful inputs k) (hi : inputs ⊆ inputs') :
    ClassInfo.Rightful inputs' k := by
  refine ⟨fun name c hc => ?_, h.statics⟩
  obtain ⟨hname, hsurveyed⟩ := h.methods name c hc
  exact ⟨hname, fun hinit => (hsurveyed hinit).mono hi⟩

lemma Rightful.mono (h : Rightful inputs bound v) (hi : inputs ⊆ inputs')
    (hb : ∀ c, bound c → bound' c) : Rightful inputs' bound' v := by
  cases v with
  | function id c => exact Closure.Rightful.mono h hi hb
  | classValue id k => exact ClassInfo.Rightful.mono h hi
  | object id k => exact ClassInfo.Rightful.mono h hi
  | _ => trivial

lemma rightful_of_isPlain (h : v.IsPlain) : Rightful inputs bound v := by
  cases v with
  | function => exact h.elim
  | classValue => exact h.elim
  | object => exact h.elim
  | _ => trivial

lemma WellMarked.mono (h : WellMarked inputs bound m) (hi : inputs ⊆ inputs')
    (hb : ∀ c, bound c → bound' c) : WellMarked inputs' bound' m :=
  ⟨fun v hv => (h.values v hv).mono hi hb, fun c hc => (h.calls c hc).mono hi hb⟩

/-! ### What is held where a step needs it -/

lemma holds_of_calls {callee : Value} (h : m.calls? = some (callee, args, site)) :
    m.Holds callee := by
  unfold calls? at h
  split at h
  · rename_i hp hc
    cases h
    exact .inHand hc
  · rename_i hp hc
    cases h
    exact .waiting (hp ▸ List.mem_cons_self ..) (List.mem_cons_self ..)
  · cases h

lemma holds_of_constructs (h : m.constructs? = some k) : ∃ id, m.Holds (.classValue id k) := by
  unfold constructs? at h
  split at h
  · rename_i hp hc
    split at h
    · cases h
      exact ⟨_, .inHand hc⟩
    · cases h
  · rename_i hp hc
    split at h
    · cases h
      exact ⟨_, .waiting (hp ▸ List.mem_cons_self ..) (List.mem_cons_self ..)⟩
    · cases h
  · cases h

/-- A method that is bound stands in a class that is held. -/
lemma WellMarked.of_binds (h : WellMarked inputs bound m) (hb : m.Binds o c) :
    c.isInitializer → Surveyed inputs .initializer c.decl := by
  cases hb with
  | method hc hp hfield hm => exact ((h.values _ (.inHand hc)).methods _ _ hm).2
  | static hc hp hfield hm =>
    exact fun hinit => absurd hinit ((h.values _ (.inHand hc)).statics _ _ hm)
  | initializer hk hm =>
    obtain ⟨id, hheld⟩ := holds_of_constructs hk
    exact ((h.values _ hheld).methods _ _ hm).2

/-- A method has the same mark once it is bound. -/
lemma WellMarked.within (h : WellMarked inputs bound m) (hb : m.Binds o c)
    (hnext : bound (c.within m.world.frames.next)) :
    Closure.Rightful inputs bound (c.within m.world.frames.next) := by
  intro hinit
  have hsurveyed : Surveyed inputs .initializer c.decl := h.of_binds hb hinit
  exact ⟨hsurveyed, hnext⟩

/-! ### From step to step -/

/-- The methods of a class that is declared. -/
lemma rightful_of_classDecl (h : Invariant x m) {name : Token} {ms ss : List FunctionDecl}
    (hc : m.control = .exec (.classDecl name ms ss)) :
    ClassInfo.Rightful x.inputs ⟨name.lexeme, methodTable m.env ms, staticTable m.env ss⟩ := by
  obtain ⟨S, hplaced⟩ : ∃ S, Placed x m.env S (.stmt (.classDecl name ms ss)) := by
    obtain ⟨control, pending, env, depth, w⟩ := m
    cases hc
    cases h.runs with
    | exec hplaced => exact ⟨_, hplaced⟩
  constructor
  · intro n c hn
    obtain ⟨d, hd, hpair⟩ := List.mem_map.mp (Table.mem_of_get?_ofList hn)
    obtain ⟨rfl, rfl⟩ := Prod.mk.inj hpair
    refine ⟨decide_eq_true_iff, fun hinit => ?_⟩
    obtain ⟨y, -, hin⟩ := hplaced.methods
    obtain ⟨xs, ctx, t, hv, -, -⟩ := hin.methods d hd
    have hbody : Survey.methodBody d = .initializer := if_pos (decide_eq_true_iff.mp hinit)
    exact ⟨_, ctx, t, hbody ▸ hv⟩
  · intro n c hn
    obtain ⟨d, hd, hpair⟩ := List.mem_map.mp (Table.mem_of_get?_ofList hn)
    obtain ⟨-, rfl⟩ := Prod.mk.inj hpair
    exact Bool.false_ne_true

lemma WellMarked.created (h : WellMarked x.inputs bound m) (hx : Invariant x m)
    (hnext : ∀ o c, m.Binds o c → bound (c.within m.world.frames.next)) (hv : m.Creates v) :
    Rightful x.inputs bound v := by
  cases hv with
  | function => exact nofun
  | classValue hc => exact rightful_of_classDecl hx hc
  | method hb => exact h.within hb (hnext _ _ hb)
  | object hk =>
    obtain ⟨id, hheld⟩ := holds_of_constructs hk
    have hclass : ClassInfo.Rightful x.inputs _ := h.values _ hheld
    exact hclass

/-- The function that a step attempts to enter is marked rightly. -/
lemma WellMarked.attempts (h : WellMarked inputs bound m)
    (hnext : ∀ o c, m.Binds o c → bound (c.within m.world.frames.next)) (ha : m.Attempts c args site) :
    Closure.Rightful inputs bound c := by
  cases ha with
  | function hcalls => exact h.values _ (holds_of_calls hcalls)
  | initializer hcalls hlength hinit =>
    have hb : m.Binds _ _ := .initializer (constructs_of_calls hcalls hlength) hinit
    exact h.within hb (hnext _ _ hb)
  | getter _ hb => exact h.within hb (hnext _ _ hb)

theorem WellMarked.step (h : WellMarked x.inputs bound m) (hx : Invariant x m)
    (hnext : ∀ o c, m.Binds o c → bound (c.within m.world.frames.next)) (hhost : s.host.AddsNoCode) :
    WellMarked x.inputs bound (m.step s) := by
  constructor
  · intro v hv
    rcases hv.of_step hhost with hplain | hold | hnew
    · exact rightful_of_isPlain hplain
    · exact h.values v hold
    · exact h.created hx hnext hnew
  · have hmoves := step_moves s m
    cases hmoves with
    | calm hcalm =>
      rw [hcalm.activations]
      exact h.calls
    | @attempts b c args site ha hb hstep =>
      have hold : ∀ c ∈ b.activations, Closure.Rightful x.inputs bound c := by
        rw [hb.activations]
        exact h.calls
      rw [hstep]
      by_cases hroom : b.depth < maxDepth
      · obtain ⟨-, hactivations, -⟩ := @enter_of_room b c args site hroom
        rw [hactivations]
        exact List.forall_mem_cons.mpr ⟨h.attempts hnext ha, hold⟩
      · obtain ⟨-, hactivations⟩ := @enter_of_full b c args site (Nat.le_of_not_lt hroom)
        rwa [hactivations]
    | @leaves env c ps hm hn =>
      intro c hc
      refine h.calls c ?_
      unfold activations at hc ⊢
      rw [hn] at hc
      rw [hm]
      exact List.mem_cons_of_mem _ hc

/-! ### What is given back -/

/-- The innermost function that is being called. -/
def innermost? (ps : List Pending) : Option Closure := ps.findSome? Pending.callee?

lemma innermost_cons {p : Pending} (hp : ¬p.isCall) : innermost? (p :: ps) = innermost? ps := by
  cases p with
  | leaveCall env c => exact absurd rfl hp
  | _ => rfl

lemma innermost_append {env : Env} (hqs : ∀ q ∈ qs, ¬q.isCall) :
    innermost? (qs ++ .leaveCall env c :: ps) = some c := by
  induction qs with
  | nil => rfl
  | cons q qs ih =>
    obtain ⟨hq, hqs⟩ := List.forall_mem_cons.mp hqs
    exact (innermost_cons hq).trans (ih hqs)

/-- No call of an initializer is on its way to give a value back. -/
structure Silent (m : Machine) : Prop where
  leaving : ∀ v c, m.control = .exit (.leaveCall v) → innermost? m.pending = some c →
    c.isInitializer → v = .nil
  waiting : ∀ ps c, .giveBack :: ps <:+ m.pending → innermost? ps = some c → ¬c.isInitializer

lemma suffix_of_not_mem {α : Type} {a : α} {as bs cs : List α} (h : a :: as <:+ bs ++ cs)
    (ha : a ∉ bs) : a :: as <:+ cs := by
  induction bs with
  | nil => exact h
  | cons b bs ih =>
    obtain ⟨hne, ha⟩ := not_or.mp (List.mem_cons.not.mp ha)
    rcases List.suffix_cons_iff.mp h with heq | h
    · exact absurd (List.cons.inj heq).1 hne
    · exact ih h ha

/-- What waits for the value of a `return` does so from the `return` on. -/
lemma giveBack_suffix_of_step (h : .giveBack :: ps <:+ (m.step s).pending)
    (hhost : s.host.AddsNoCode) : .giveBack :: ps <:+ m.pending ∨
      ps = m.pending ∧ ∃ keyword e, m.control = .exec (.returnFrom keyword (some e)) := by
  by_cases hreturn : ∃ keyword e, m.control = .exec (.returnFrom keyword (some e))
  · obtain ⟨keyword, e, hc⟩ := id hreturn
    unfold step at h
    rw [hc] at h
    rcases List.suffix_cons_iff.mp h with heq | h
    · exact .inr ⟨(List.cons.inj heq).2, hreturn⟩
    · exact .inl h
  left
  by_cases hm : m.isHalted
  · rwa [step_of_isHalted s hm] at h
  -- nothing below the first thing that waits is looked at
  have hbelow : ∀ front rest, m.pending = front ++ rest → .giveBack ∉ front →
      ¬({ m with pending := front } : Machine).isHalted → .giveBack :: ps <:+ m.pending := by
    intro front rest hpending hfront hnot
    have honto : m = ({ m with pending := front } : Machine).onto rest := by
      unfold onto
      rw [← hpending]
    rw [honto, step_onto hnot] at h
    have hnew : .giveBack ∉ (({ m with pending := front } : Machine).step s).pending :=
      fun hmem => (giveBack_mem_of_step hmem hhost).elim hfront hreturn
    rw [hpending]
    exact (suffix_of_not_mem h hnew).trans (List.suffix_append ..)
  by_cases hc : m.control.isOutcome
  · cases hp : m.pending with
    | nil => exact absurd (isHalted_iff.mpr ⟨hp, hc⟩) hm
    | cons p rest =>
      rw [← hp]
      by_cases hback : p = .giveBack
      · -- it is taken off
        subst hback
        have hrest : (m.step s).pending = rest := by
          unfold step
          cases hcontrol : m.control with
          | value v => rw [hp]; rfl
          | exit x => rw [hp]; rfl
          | _ =>
            rw [hcontrol] at hc
            cases hc
        rw [hrest] at h
        rw [hp]
        exact h.trans (List.suffix_cons ..)
      · refine hbelow [p] rest hp (fun hmem => hback (List.mem_singleton.mp hmem).symm) ?_
        exact fun h => List.cons_ne_nil _ _ (isHalted_iff.mp h).1
  · exact hbelow [] m.pending rfl List.not_mem_nil fun h => hc (isHalted_iff.mp h).2

/-- A way out of a call that is passed on was on its way out of the same call before. -/
lemma innermost_of_unwind (hc : m.control = .exit (.leaveCall v))
    (hstep : (m.step s).control = .exit (.leaveCall v)) :
    innermost? (m.step s).pending = innermost? m.pending := by
  unfold step at hstep ⊢
  rw [hc] at hstep ⊢
  cases hp : m.pending with
  | nil =>
    dsimp only
    rw [hp]
  | cons p rest =>
    rw [hp] at hstep
    cases p with
    | leaveCall env c =>
      exfalso
      unfold unwind leave at hstep
      dsimp only at hstep
      repeat' split at hstep
      all_goals cases hstep
    | _ => rfl

theorem Silent.step (h : Silent m) (hhost : s.host.AddsNoCode)
    (hreturn : ∀ keyword e c, m.control = .exec (.returnFrom keyword (some e)) →
      innermost? m.pending = some c → ¬c.isInitializer) : Silent (m.step s) := by
  constructor
  · intro v c hv hc hinit
    rcases leaving_of_step hv hhost with ⟨keyword, -, hnil⟩ | ⟨ps, hvalue, hps⟩ | hold
    · exact hnil
    · rw [step_value hvalue hps] at hc
      exact absurd hinit (h.waiting ps c (hps ▸ List.suffix_refl _) hc)
    · rw [innermost_of_unwind hold hv] at hc
      exact h.leaving v c hold hc hinit
  · intro ps c hps hc
    rcases giveBack_suffix_of_step hps hhost with hold | ⟨rfl, keyword, e, hcontrol⟩
    · exact h.waiting ps c hold hc
    · exact hreturn keyword e c hcontrol hc

/-- No `return` with a value runs in a function with the mark. -/
lemma WellMarked.not_return (h : WellMarked inputs bound m) (hinputs : ∀ input ∈ inputs, Accepted input)
    (hl : Lodging inputs m) {keyword : Token} {e : Expr}
    (hcontrol : m.control = .exec (.returnFrom keyword (some e)))
    (hc : innermost? m.pending = some c) : ¬c.isInitializer := by
  intro hinit
  have hstands := hl.control
  rw [hcontrol] at hstands
  obtain ⟨qs, env, c', ps, hps, hqs, b, hb, hpart⟩ := Stands.return_ hinputs hl.pending hstands
  rw [hps, innermost_append hqs] at hc
  cases hc
  have hcall : c ∈ m.activations := by
    unfold activations
    rw [hps]
    exact List.mem_filterMap.mpr ⟨_, List.mem_append_right _ (List.mem_cons_self ..), rfl⟩
  obtain ⟨hsurveyed, -⟩ := h.calls c hcall hinit
  exact hsurveyed.not_return hinputs hb hpart

end Machine

end Lox
