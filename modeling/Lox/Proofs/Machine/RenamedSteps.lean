import Lox.Machine.Run
import Lox.Proofs.Machine.Parametric
import Lox.Proofs.Machine.Renaming

/-!
Each step does the same where local variables have another name.

A variable that is missed at a recorded distance is reported by its name, and nothing else that a
program says or does depends on the names of its variables.
-/

namespace Lox

namespace Machine

open Scope

variable {r : Renaming} {missed : Prop} {fs : Marks} {marks : List Bool} {m m' : Machine}
  {s : Setting} {v v' : Value} {p p' : Pending} {c c' : Closure} {args args' : List Value}
  {name site : Token} {id : NodeId}

/-! ### Outcomes -/

namespace Paired

lemma control (h : Paired r fs m m') {k k' : Control}
    (hk : Control.Renamed r missed fs m.env k k') :
    Renamed r missed { m with control := k } { m' with control := k' } :=
  ⟨fs, ⟨h.env, h.depth, h.world, h.waits⟩, hk⟩

lemma give (h : Paired r fs m m') (hv : Value.Renamed r fs v v') :
    Renamed r missed (m.give v) (m'.give v') :=
  h.control (.value hv)

lemma finish (h : Paired r fs m m') : Renamed r missed m.finish m'.finish := h.give .nil

lemma fail (h : Paired r fs m m') (f : Failure) : Renamed r missed (m.fail f) (m'.fail f) :=
  h.control (.exit (.fail .same))

lemma giveResult (h : Paired r fs m m') {x x' : Except Failure Value}
    (hx : LikeResult (Value.Renamed r fs) x x') :
    Renamed r missed (m.giveResult x) (m'.giveResult x') := by
  cases hx with
  | ok hv => exact h.give hv
  | error => exact h.fail _

lemma wait (h : Paired r fs m m') (hm : Marked fs m.env marks)
    (hp : Pending.Renamed r fs marks p p') :
    Paired r fs { m with pending := p :: m.pending } { m' with pending := p' :: m'.pending } :=
  ⟨h.env, h.depth, h.world, .cons hm hp h.waits⟩

lemma await (h : Paired r fs m m') (hm : Marked fs m.env marks)
    (hp : Pending.Renamed r fs marks p p') {k k' : Control}
    (hk : Control.Renamed r missed fs m.env k k') :
    Renamed r missed (m.await p k) (m'.await p' k') :=
  (h.wait hm hp).control hk

lemma awaitEval (h : Paired r fs m m') (hm : Marked fs m.env marks)
    (hp : Pending.Renamed r fs marks p p') (e : Expr) :
    Renamed r missed (m.await p (.eval e)) (m'.await p' (.eval (e.rename r marks))) :=
  h.await hm hp (.eval hm)

lemma change (h : Paired r fs m m') {fs' : Marks} {f f' : World → World}
    (hw : World.Renamed r fs' (f m.world) (f' m'.world)) (hfs : fs <+: fs') :
    Paired r fs' (m.change f) (m'.change f') :=
  ⟨h.env, h.depth, hw, h.waits.mono hfs⟩

/-! ### Variables -/

/-- Both programs find a variable in the same frame, and the names in it are exchanged if that of
the reference is. -/
lemma holderOf? (h : Paired r fs m m') (hs : s.distances = r.known) (hm : Marked fs m.env marks)
    (id : NodeId) (name : Token) :
    m'.holderOf? s id (r.referred marks id name) = m.holderOf? s id name ∧
      ∀ f, m.holderOf? s id name = some f → fs[f]? = some (r.leads marks id) := by
  unfold Machine.holderOf? Renaming.referred Renaming.token
  rw [hs]
  cases hd : r.known[id]? with
  | none =>
    have hbinds := h.world.binds h.world.globals name.lexeme
    rw [Renaming.leads_of_none hd]
    dsimp only
    unfold Frames.holder? Env.globals
    rw [List.find?_singleton, List.find?_singleton, hbinds]
    refine ⟨rfl, fun f hf => ?_⟩
    split at hf
    · exact Option.some.inj hf ▸ h.world.globals
    · cases hf
  | some d =>
    rw [Renaming.leads_of_some hd]
    dsimp only
    unfold Frames.holderAt?
    rw [h.env]
    cases henv : m.env[d]? with
    | none => exact ⟨rfl, nofun⟩
    | some f =>
      have hf := hm d f henv
      have hbinds := h.world.binds hf name.lexeme
      rw [Option.filter_some, Option.filter_some, hbinds]
      refine ⟨rfl, fun g hg => ?_⟩
      split at hg
      · exact Option.some.inj hg ▸ hf
      · cases hg

/-- A name that is not found. -/
lemma undefined (h : Paired r fs m m') (hmissed : r.known[id]? ≠ none → missed) :
    Renamed r missed (m.failAt name (.undefinedVariable name.lexeme))
      (m'.failAt (r.referred marks id name)
        (.undefinedVariable (r.referred marks id name).lexeme)) := by
  refine h.control (.exit (.fail ?_))
  cases hleads : r.leads marks id with
  | false =>
    rw [Renaming.referred, hleads, Renaming.token_false]
    exact .same
  | true =>
    rw [Renaming.referred, hleads]
    refine .undefined (hmissed fun hnone => ?_)
    rw [Renaming.leads_of_none hnone] at hleads
    cases hleads

lemma readVariable (h : Paired r fs m m') (hs : s.distances = r.known)
    (hm : Marked fs m.env marks)
    (hmissed : r.known[id]? ≠ none → m.holderOf? s id name = none → missed) :
    Renamed r missed (m.readVariable s id name)
      (m'.readVariable s id (r.referred marks id name)) := by
  obtain ⟨hholder, hfound⟩ := h.holderOf? hs hm id name
  rw [readVariable_eq, readVariable_eq, hholder]
  cases hf : m.holderOf? s id name with
  | none => exact h.undefined fun hd => hmissed hd hf
  | some f =>
    have hown := h.world.frames f _ (hfound f hf) name.lexeme
    have hbinds : (m.world.frames.own? f name.lexeme).isSome := binds_of_holderOf? hf
    change Renamed r missed (m.giveFound name (m.world.frames.own? f name.lexeme))
      (m'.giveFound _ (m'.world.frames.own? f (r.key (r.leads marks id) name.lexeme)))
    generalize m.world.frames.own? f name.lexeme = a at hown hbinds ⊢
    generalize m'.world.frames.own? f (r.key (r.leads marks id) name.lexeme) = a' at hown ⊢
    cases hown with
    | none => cases hbinds
    | some hv => exact h.give hv

lemma writeVariable (h : Paired r fs m m') (hs : s.distances = r.known)
    (hm : Marked fs m.env marks) (hv : Value.Renamed r fs v v')
    (hmissed : r.known[id]? ≠ none → m.holderOf? s id name = none → missed) :
    Renamed r missed (m.writeVariable s id name v)
      (m'.writeVariable s id (r.referred marks id name) v') := by
  obtain ⟨hholder, hfound⟩ := h.holderOf? hs hm id name
  change Renamed r missed (m.writeIn (m.holderOf? s id name) name v)
    (m'.writeIn (m'.holderOf? s id (r.referred marks id name)) _ v')
  rw [hholder]
  cases hf : m.holderOf? s id name with
  | none => exact h.undefined fun hd => hmissed hd hf
  | some f =>
    have hw := h.world.write (hfound f hf) name.lexeme hv
    exact (h.change (f := (·.write f name.lexeme v)) hw List.prefix_rfl).give hv

lemma define (h : Paired r fs m m') (hm : Marked fs m.env marks) (name : Token)
    (hv : Value.Renamed r fs v v') :
    Renamed r missed (m.define name v) (m'.define (r.declared marks name) v') := by
  have hw : World.Renamed r fs (m.world.define m.env name.lexeme v)
      (m'.world.define m'.env (r.declared marks name).lexeme v') := by
    unfold World.define
    rw [h.env]
    cases henv : m.env with
    | nil => exact h.world
    | cons f env => exact h.world.write (hm 0 f (by rw [henv]; rfl)) name.lexeme hv
  exact (h.change hw List.prefix_rfl).finish

/-! ### Calls -/

lemma mark_next (h : Paired r fs m m') (mark : Bool) :
    (fs ++ [mark])[m.world.frames.next]? = some mark := by
  rw [h.world.next, List.getElem?_concat_length]

lemma next_eq (h : Paired r fs m m') : m'.world.frames.next = m.world.frames.next :=
  h.world.next'.trans h.world.next.symm

lemma enter (h : Paired r fs m m') (hc : Closure.Renamed r [] fs c c')
    (hargs : List.Forall₂ (Value.Renamed r fs) args args') (site : Token) :
    Renamed r missed (m.enter c args site) (m'.enter c' args' site) := by
  obtain ⟨around, sort, hmarked, hcode⟩ := hc.code
  obtain ⟨-, -, mark, hparams, hbody⟩ := hcode.function_inv
  unfold Machine.enter
  rw [h.depth]
  split
  · exact h.fail _
  · have hgrown : fs <+: fs ++ [mark] := List.prefix_append ..
    have hw := h.world.addFrame (rel_parameterFrame (r.key_injective mark) (g := r.token mark)
      (fun _ => rfl) hargs c.decl.paramList)
    rw [h.env, h.next_eq, hc.env, hparams]
    exact ⟨fs ++ [mark], ⟨rfl, rfl, hw, .leaveCall (hc.mono hgrown) (h.waits.mono hgrown)⟩,
      .execAll ((hmarked.mono hgrown).cons (h.mark_next mark)) hbody⟩

lemma left (h : Paired r fs m m') :
    Paired r fs { m with depth := m.depth - 1 } { m' with depth := m'.depth - 1 } :=
  ⟨h.env, congrArg (· - 1) h.depth, h.world, h.waits⟩

/-- A call ends in the environment in which the rest waits. -/
lemma leave (h : Paired r fs m m') (hc : Closure.Renamed r [] fs c c')
    (hv : Value.Renamed r fs v v') :
    Renamed r missed (m.leave m.env c v) (m'.leave m'.env c' v') := by
  obtain ⟨around, sort, hmarked, hcode⟩ := hc.code
  obtain ⟨hname, -⟩ := hcode.function_inv
  have hthis : Option.Rel (Value.Renamed r fs) (m.world.frames.getAt? c.env 0 "this")
      (m'.world.frames.getAt? c'.env 0 "this") := by
    unfold Frames.getAt?
    rw [hc.env]
    cases henv : c.env[0]? with
    | none => exact .none
    | some f =>
      have hown := h.world.frames f _ (hmarked 0 f henv) "this"
      rwa [Renaming.key_this] at hown
  unfold Machine.leave
  dsimp only
  rw [hc.isInitializer, hname]
  split
  · generalize m.world.frames.getAt? c.env 0 "this" = a at hthis ⊢
    generalize m'.world.frames.getAt? c'.env 0 "this" = a' at hthis ⊢
    cases hthis with
    | none => exact h.left.fail _
    | some hthis => exact h.left.give hthis
  · exact h.left.give hv

lemma bind (h : Paired r fs m m') (hv : Value.Renamed r fs v v') :
    Paired r (fs ++ [false]) (m.bind v) (m'.bind v') := by
  refine h.change (h.world.addFrame fun name => ?_) (List.prefix_append ..)
  rw [Renaming.key_false]
  exact rel_thisFrame hv name

lemma within_next (h : Paired r fs m m') (hc : Closure.Renamed r [false] fs c c') :
    Closure.Renamed r [] (fs ++ [false]) (c.within m.world.frames.next)
      (c'.within m'.world.frames.next) := by
  rw [h.next_eq]
  exact (hc.mono (List.prefix_append ..)).within (h.mark_next false)

lemma construct (h : Paired r fs m m') {k k' : ClassInfo}
    (hk : k.Like (Closure.Renamed r [false] fs) k')
    (hm : Marked fs m.env marks) (hargs : List.Forall₂ (Value.Renamed r fs) args args')
    (site : Token) : Renamed r missed (m.construct k args site) (m'.construct k' args' site) := by
  have howner := h.change (f := (·.addOwner)) h.world.addOwner List.prefix_rfl
  have hobject : Value.Renamed r fs (.object m.world.nextOwner k)
      (.object m'.world.nextOwner k') := by
    rw [h.world.nextOwner]
    exact .object hk
  have hinit := hk.methods initName
  unfold Machine.construct ClassInfo.initializer?
  dsimp only
  generalize k.methods.get? initName = f at hinit ⊢
  generalize k'.methods.get? initName = f' at hinit ⊢
  cases hinit with
  | none => exact howner.give hobject
  | some hf =>
    have hgrown : fs <+: fs ++ [false] := List.prefix_append ..
    have hbound := howner.bind hobject
    have hwaiting := hbound.wait (hm.mono hgrown) (.construct (hobject.mono hgrown))
    exact hwaiting.enter (howner.within_next hf) (hargs.imp fun _ _ hv => hv.mono hgrown) site

lemma invoke (h : Paired r fs m m') (hhost : s.host.Parametric) (hm : Marked fs m.env marks)
    (hv : Value.Renamed r fs v v') (hargs : List.Forall₂ (Value.Renamed r fs) args args')
    (paren : Token) :
    Renamed r missed (m.invoke s v args paren) (m'.invoke s v' args' paren) := by
  cases hv with
  | @native n =>
    have hanswer := hhost.like (fun _ _ hc => hc.looksLike) (fun _ _ hc => hc.looksLike) n.name hargs
    dsimp only [Machine.invoke]
    generalize s.host n.name args = x at hanswer ⊢
    generalize s.host n.name args' = x' at hanswer ⊢
    cases hanswer with
    | ok hv => exact h.give hv
    | error => exact h.fail _
  | function hc => exact h.enter hc hargs paren
  | classValue hk => exact h.construct hk hm hargs paren
  | _ => exact h.fail _

lemma call (h : Paired r fs m m') (hhost : s.host.Parametric) (hm : Marked fs m.env marks)
    (hv : Value.Renamed r fs v v') (hargs : List.Forall₂ (Value.Renamed r fs) args args')
    (paren : Token) : Renamed r missed (m.call s v args paren) (m'.call s v' args' paren) := by
  unfold Machine.call
  rw [hv.arity?, hargs.length_eq]
  split
  · exact h.fail _
  · split
    · exact h.invoke hhost hm hv hargs paren
    · exact h.fail _

lemma nextArgument (h : Paired r fs m m') (hhost : s.host.Parametric)
    (hm : Marked fs m.env marks) (hv : Value.Renamed r fs v v')
    (hargs : List.Forall₂ (Value.Renamed r fs) args args') (paren : Token) (rest : List Expr) :
    Renamed r missed (m.nextArgument s v paren args rest)
      (m'.nextArgument s v' paren args' (rest.map (Expr.rename r marks))) := by
  cases rest with
  | nil => exact h.call hhost hm hv (List.forall₂_reverse_iff.mpr hargs) paren
  | cons e rest => exact h.awaitEval hm (.argument hv hargs) e

/-! ### Properties -/

lemma giveMethod (h : Paired r fs m m') (hv : Value.Renamed r fs v v')
    (hc : Closure.Renamed r [false] fs c c') (name : Token) :
    Renamed r missed (m.giveMethod v c name) (m'.giveMethod v' c' name) := by
  have hbound := h.bind hv
  have hwithin := h.within_next hc
  obtain ⟨around, sort, -, hcode⟩ := hc.code
  obtain ⟨-, hgetter, -⟩ := hcode.function_inv
  unfold Machine.giveMethod
  dsimp only
  rw [hgetter]
  split
  · exact hbound.enter hwithin .nil name
  · have hcounted := hbound.change (f := (·.addFunction)) hbound.world.addFunction List.prefix_rfl
    refine hcounted.give ?_
    rw [hbound.world.functions]
    exact .function hwithin

lemma readMember (h : Paired r fs m m') (owner : ℕ) (hv : Value.Renamed r fs v v')
    {f f' : Option Closure} (hf : Option.Rel (Closure.Renamed r [false] fs) f f')
    (name : Token) :
    Renamed r missed (m.readMember owner v f name) (m'.readMember owner v' f' name) := by
  have hfield := h.world.fields owner name.lexeme
  unfold Machine.readMember
  generalize m.world.field? owner name.lexeme = a at hfield ⊢
  generalize m'.world.field? owner name.lexeme = a' at hfield ⊢
  cases hfield with
  | some ha => exact h.give ha
  | none =>
    cases hf with
    | none => exact h.fail _
    | some hc => exact h.giveMethod hv hc name

lemma readProperty (h : Paired r fs m m') (hv : Value.Renamed r fs v v') (name : Token) :
    Renamed r missed (m.readProperty v name) (m'.readProperty v' name) := by
  cases hv with
  | object hk => exact h.readMember _ (.object hk) (hk.methods name.lexeme) name
  | classValue hk => exact h.readMember _ (.classValue hk) (hk.statics name.lexeme) name
  | _ => exact h.fail _

lemma takeTarget (h : Paired r fs m m') (hm : Marked fs m.env marks)
    (hv : Value.Renamed r fs v v') (name : Token) (e : Expr) :
    Renamed r missed (m.takeTarget v name e) (m'.takeTarget v' name (e.rename r marks)) := by
  cases hv with
  | object => exact h.awaitEval hm .field e
  | classValue => exact h.awaitEval hm .field e
  | _ => exact h.fail _

/-! ### Declarations -/

lemma declareFunction (h : Paired r fs m m') (hm : Marked fs m.env marks) {d d' : FunctionDecl}
    (hname : r.declared marks d.name = d.name)
    (hd : Node.Renamed true r marks (.function .function d) (.function .function d')) :
    Renamed r missed (m.declareFunction d) (m'.declareFunction d') := by
  have hcounted := h.change (f := (·.addFunction)) h.world.addFunction List.prefix_rfl
  have hc : Closure.Renamed r [] fs ⟨d, m.env, false⟩ ⟨d', m'.env, false⟩ :=
    ⟨h.env, rfl, marks, .function, hm, hd⟩
  have hf : Value.Renamed r fs (.function m.world.functions ⟨d, m.env, false⟩)
      (.function m.world.functions ⟨d', m'.env, false⟩) := .function hc
  have hdefined := @define r missed fs marks _ _ _ _ hcounted hm d.name hf
  rw [hname] at hdefined
  unfold Machine.declareFunction
  dsimp only
  rw [hd.name_eq, h.world.functions]
  exact hdefined

end Paired

lemma forall₂_methods {ds ds' : List FunctionDecl}
    (h : Node.Renamed true r marks (.methods ds) (.methods ds')) :
    List.Forall₂ (fun d d' => ∃ sort,
      Node.Renamed true r marks (.function sort d) (.function sort d')) ds ds' := by
  induction ds generalizing ds' with
  | nil =>
    cases h
    exact .nil
  | cons d ds ih =>
    cases h with
    | method hd hds => exact .cons ⟨_, hd⟩ (ih hds)

lemma forall₂_statics {ds ds' : List FunctionDecl}
    (h : Node.Renamed true r marks (.statics ds) (.statics ds')) :
    List.Forall₂ (fun d d' => ∃ sort,
      Node.Renamed true r marks (.function sort d) (.function sort d')) ds ds' := by
  induction ds generalizing ds' with
  | nil =>
    cases h
    exact .nil
  | cons d ds ih =>
    cases h with
    | static hd hds => exact .cons ⟨_, hd⟩ (ih hds)

lemma likeMembers_renamed {outer : List Bool} {env : Env} (hm : Marked fs env marks)
    {ds ds' : List FunctionDecl} (h : List.Forall₂ (fun d d' => ∃ sort,
      Node.Renamed true r (outer ++ marks) (.function sort d) (.function sort d')) ds ds') :
    LikeMembers (Closure.Renamed r outer fs) env env ds ds' :=
  h.imp fun _ _ ⟨sort, hd⟩ => ⟨hd.name_eq, fun _ => ⟨rfl, rfl, marks, sort, hm, hd⟩⟩

namespace Paired

lemma declareClass (h : Paired r fs m m') (hm : Marked fs m.env marks)
    (hname : r.declared marks name = name) {ms ms' ss ss' : List FunctionDecl}
    (hms : Node.Renamed true r (false :: marks) (.methods ms) (.methods ms'))
    (hss : Node.Renamed true r (false :: marks) (.statics ss) (.statics ss')) :
    Renamed r missed (m.declareClass name ms ss) (m'.declareClass name ms' ss') := by
  have howner := h.change (f := (·.addOwner)) h.world.addOwner List.prefix_rfl
  have hms' : LikeMembers (Closure.Renamed r [false] fs) m.env m.env ms ms' :=
    likeMembers_renamed hm (forall₂_methods hms)
  have hss' : LikeMembers (Closure.Renamed r [false] fs) m.env m.env ss ss' :=
    likeMembers_renamed hm (forall₂_statics hss)
  have hv : Value.Renamed r fs (.classValue m.world.nextOwner _)
      (.classValue m.world.nextOwner _) := .classValue (hms'.likeClass hss' name.lexeme)
  have hdefined := @define r missed fs marks _ _ _ _ howner hm name hv
  rw [hname] at hdefined
  unfold Machine.declareClass
  dsimp only
  rw [h.env, h.world.nextOwner]
  exact hdefined

/-! ### Statements and expressions -/

lemma printLine (h : Paired r fs m m') (hv : Value.Renamed r fs v v') :
    Renamed r missed (m.printLine v) (m'.printLine v') := by
  have hput : Paired r fs (m.change (·.put (v.text ++ "\n").toUTF8))
      (m'.change (·.put (v.text ++ "\n").toUTF8)) := h.change (h.world.put _) List.prefix_rfl
  unfold Machine.printLine
  dsimp only
  rw [hv.text, h.world.sink]
  split
  · exact hput.finish
  · exact hput.fail _

lemma openBlock (h : Paired r fs m m') (hm : Marked fs m.env marks) {mark : Bool}
    {body body' : List Stmt}
    (hbody : Node.Renamed true r (mark :: marks) (.stmts body) (.stmts body')) :
    Renamed r missed (m.openBlock body) (m'.openBlock body') := by
  have hgrown : fs <+: fs ++ [mark] := List.prefix_append ..
  have hw : World.Renamed r (fs ++ [mark]) (m.world.addFrame []) (m'.world.addFrame []) :=
    h.world.addFrame fun _ => .none
  unfold Machine.openBlock
  rw [h.env, h.next_eq]
  exact ⟨fs ++ [mark], ⟨rfl, h.depth, hw, .leaveBlock (h.waits.mono hgrown)⟩,
    .execAll ((hm.mono hgrown).cons (h.mark_next mark)) hbody⟩

lemma evalStep (h : Paired r fs m m') (hs : s.distances = r.known) (hm : Marked fs m.env marks)
    (e : Expr) (hmissed : ∀ id name, e = .reference id name ∨ e = .this id name →
      r.known[id]? ≠ none → m.holderOf? s id name = none → missed) :
    Renamed r missed (m.evalStep s e) (m'.evalStep s (e.rename r marks)) := by
  cases e with
  | literal l => cases l <;> exact h.give (by constructor)
  | group e => exact h.control (.eval hm)
  | unary op e => exact h.awaitEval hm .unary e
  | binary l op e => exact h.awaitEval hm .binaryLeft l
  | logical l op e => exact h.awaitEval hm .logical l
  | conditional c t e => exact h.awaitEval hm .conditional c
  | reference id name => exact h.readVariable hs hm (hmissed id name (.inl rfl))
  | assign id name e => exact h.awaitEval hm .assign e
  | call f paren arguments =>
    rw [Expr.rename, Expr.renameEach_eq_map]
    exact h.awaitEval hm .callee f
  | property e name => exact h.awaitEval hm .property e
  | setProperty e name value => exact h.awaitEval hm .target e
  | this id keyword => exact h.readVariable hs hm (hmissed id keyword (.inr rfl))

lemma execStep (h : Paired r fs m m') (hm : Marked fs m.env marks) {d d' : Stmt}
    (hd : Node.Renamed true r marks (.stmt d) (.stmt d')) :
    Renamed r missed (m.execStep d) (m'.execStep d') := by
  cases hd with
  | @expression _ e => exact h.awaitEval hm .discard e
  | @print _ e => exact h.awaitEval hm .print e
  | @declare _ name initial =>
    cases initial with
    | none => exact h.define hm name .nil
    | some e => exact h.awaitEval hm .declare e
  | block _ hbody => exact h.openBlock hm hbody
  | ifThen ht => exact h.awaitEval hm (.ifThen ht) _
  | ifElse ht he => exact h.awaitEval hm (.ifElse ht he) _
  | loop hbody => exact h.awaitEval hm (.loopTest hbody) _
  | breakLoop => exact h.control (.exit .leaveLoop)
  | function hname hd => exact h.declareFunction hm (hname rfl) hd
  | @returnFrom _ keyword value =>
    cases value with
    | none => exact h.control (.exit (.leaveCall .nil))
    | some e => exact h.awaitEval hm .giveBack e
  | classDecl hname hms hss => exact h.declareClass hm (hname rfl) hms hss

/-- What waits in the current environment takes a value. -/
lemma receive (h : Paired r fs m m') (hhost : s.host.Parametric) (hs : s.distances = r.known)
    (hm : Marked fs m.env marks) (hp : Pending.Renamed r fs marks p p')
    (hv : Value.Renamed r fs v v')
    (hmissed : ∀ id name, p = .assign id name → r.known[id]? ≠ none →
      m.holderOf? s id name = none → missed) :
    Renamed r missed (m.receive s p v) (m'.receive s p' v') := by
  cases hp with
  | @unary op => exact h.giveResult (Operator.like_unary op hv)
  | binaryLeft => exact h.awaitEval hm (.binaryRight hv) _
  | @binaryRight l l' op hl =>
    exact h.giveResult (Operator.like_binary op (fun _ _ hc => hc.looksLike) hl hv)
  | @logical op e =>
    dsimp only [Machine.receive]
    rw [Operator.decides_eq op hv]
    split
    · exact h.give hv
    · exact h.control (.eval hm)
  | conditional =>
    dsimp only [Machine.receive]
    rw [hv.isTruthy_eq, ← apply_ite]
    exact h.control (.eval hm)
  | @assign id name => exact h.writeVariable hs hm hv (hmissed id name rfl)
  | callee => exact h.nextArgument hhost hm hv .nil _ _
  | argument hf hfound => exact h.nextArgument hhost hm hf (.cons hv hfound) _ _
  | property => exact h.readProperty hv _
  | target => exact h.takeTarget hm hv _ _
  | @field owner name =>
    exact (h.change (f := (·.setField owner name.lexeme v)) (h.world.setField _ _ hv)
      List.prefix_rfl).give hv
  | discard => exact h.finish
  | print => exact h.printLine hv
  | @declare name => exact h.define hm name hv
  | ifThen ht =>
    dsimp only [Machine.receive]
    rw [hv.isTruthy_eq]
    split
    · exact h.control (.exec hm ht)
    · exact h.finish
  | ifElse ht he =>
    dsimp only [Machine.receive]
    rw [hv.isTruthy_eq]
    split
    · exact h.control (.exec hm ht)
    · exact h.control (.exec hm he)
  | loopTest hbody =>
    dsimp only [Machine.receive]
    rw [hv.isTruthy_eq]
    split
    · exact h.await hm (.loopBody hbody) (.exec hm hbody)
    · exact h.finish
  | loopBody hbody => exact h.awaitEval hm (.loopTest hbody) _
  | giveBack => exact h.control (.exit (.leaveCall hv))
  | sequence hrest => exact h.control (.execAll hm hrest)
  | construct hobject => exact h.give hobject

end Paired

/-! ### Steps -/

section
variable {k : Control} {x x' : Exit} {ps : List Pending} {env : Env} {depth : ℕ} {w : World}

/-- What waits first takes a value, and brings back the environment in which the rest waits. -/
lemma renamed_receive (h : Paired r fs ⟨k, p :: ps, env, depth, w⟩ m')
    (hhost : s.host.Parametric) (hs : s.distances = r.known) (hv : Value.Renamed r fs v v')
    (hmissed : ∀ id name, p = .assign id name → r.known[id]? ≠ none →
      holderOf? s ⟨k, ps, env, depth, w⟩ id name = none → missed) :
    ∃ p' ps', m'.pending = p' :: ps' ∧
      Renamed r missed (receive s ⟨k, ps, env, depth, w⟩ p v)
        (receive s { m' with pending := ps' } p' v') := by
  obtain ⟨k', pending', env', depth', w'⟩ := m'
  obtain ⟨henv, hdepth, hw, hwaits⟩ := h
  cases hwaits with
  | @cons _ _ _ p' _ ps' hm hp hps =>
    have hrest : Paired r fs ⟨k, ps, env, depth, w⟩ ⟨k', ps', env', depth', w'⟩ :=
      ⟨henv, hdepth, hw, hps⟩
    exact ⟨p', ps', rfl, hrest.receive hhost hs hm hp hv hmissed⟩
  | @leaveBlock _ outer _ ps' hps =>
    have hrest : Paired r fs ⟨k, ps, outer, depth, w⟩ ⟨k', ps', outer, depth', w'⟩ :=
      ⟨rfl, hdepth, hw, hps⟩
    exact ⟨_, ps', rfl, hrest.finish⟩
  | @leaveCall _ outer _ _ _ ps' hc hps =>
    have hrest : Paired r fs ⟨k, ps, outer, depth, w⟩ ⟨k', ps', outer, depth', w'⟩ :=
      ⟨rfl, hdepth, hw, hps⟩
    exact ⟨_, ps', rfl, hrest.leave hc .nil⟩

/-- A way out passes what waits first, and ends loops and calls. -/
lemma renamed_unwind (h : Paired r fs ⟨.exit x, p :: ps, env, depth, w⟩ m')
    (hx : Exit.Renamed r missed fs x x') (hk : m'.control = .exit x') :
    ∃ p' ps', m'.pending = p' :: ps' ∧
      Renamed r missed (unwind ⟨.exit x, ps, env, depth, w⟩ p x)
        (unwind { m' with pending := ps' } p' x') := by
  obtain ⟨k', pending', env', depth', w'⟩ := m'
  obtain rfl : k' = .exit x' := hk
  obtain ⟨henv, hdepth, hw, hwaits⟩ := h
  cases hwaits with
  | @cons _ _ _ p' _ ps' hm hp hps =>
    have hrest : Paired r fs ⟨.exit x, ps, env, depth, w⟩ ⟨.exit x', ps', env', depth', w'⟩ :=
      ⟨henv, hdepth, hw, hps⟩
    refine ⟨p', ps', rfl, ?_⟩
    -- only a loop stops something that is no call
    by_cases hloop : (∃ e body, p = .loopBody e body) ∧ x = .leaveLoop
    · obtain ⟨⟨e, body, rfl⟩, rfl⟩ := hloop
      cases hp
      cases hx
      exact hrest.finish
    · have hpast := hrest.control (.exit hx)
      cases hp <;> cases hx <;> first | exact hpast | exact absurd ⟨⟨_, _, rfl⟩, rfl⟩ hloop
  | @leaveBlock _ outer _ ps' hps =>
    have hrest : Paired r fs ⟨.exit x, ps, outer, depth, w⟩ ⟨.exit x', ps', outer, depth', w'⟩ :=
      ⟨rfl, hdepth, hw, hps⟩
    exact ⟨_, ps', rfl, hrest.control (.exit hx)⟩
  | @leaveCall _ outer _ _ _ ps' hc hps =>
    have hrest : Paired r fs ⟨.exit x, ps, outer, depth, w⟩ ⟨.exit x', ps', outer, depth', w'⟩ :=
      ⟨rfl, hdepth, hw, hps⟩
    have hpast := hrest.left.control (.exit hx)
    refine ⟨_, ps', rfl, ?_⟩
    cases hx with
    | leaveCall hv => exact hrest.leave hc hv
    | leaveLoop => exact hpast
    | fail => exact hpast

end

/-- A step does the same where local variables have another name. -/
theorem Renamed.step (h : Renamed r missed m m') (hhost : s.host.Parametric)
    (hs : s.distances = r.known)
    (hmissed : ∀ id name, m.accesses? = some (id, name) → r.known[id]? ≠ none →
      m.holderOf? s id name = none → missed) :
    Renamed r missed (m.step s) (m'.step s) := by
  obtain ⟨fs, hm, hk⟩ := h
  obtain ⟨k, pending, env, depth, w⟩ := m
  obtain ⟨k', pending', env', depth', w'⟩ := m'
  dsimp only at hk
  cases hk with
  | eval hmarked =>
    refine hm.evalStep hs hmarked _ fun id name he => hmissed id name ?_
    rcases he with rfl | rfl <;> rfl
  | exec hmarked hd => exact hm.execStep hmarked hd
  | execAll hmarked hbody =>
    cases hbody with
    | nil => exact hm.finish
    | cons hd hds => exact hm.await hmarked (.sequence hds) (.exec hmarked hd)
  | value hv =>
    cases pending with
    | nil =>
      cases hm.waits
      exact ⟨fs, hm, .value hv⟩
    | cons p ps =>
      obtain ⟨p', ps', hps, hreceived⟩ := renamed_receive hm hhost hs hv fun id name hp =>
        hmissed id name (by rw [hp]; rfl)
      obtain rfl : pending' = p' :: ps' := hps
      exact hreceived
  | exit hx =>
    cases pending with
    | nil =>
      cases hm.waits
      exact ⟨fs, hm, .exit hx⟩
    | cons p ps =>
      obtain ⟨p', ps', hps, hunwound⟩ := renamed_unwind hm hx rfl
      obtain rfl : pending' = p' :: ps' := hps
      exact hunwound

lemma Renamed.isHalted_eq (h : Renamed r missed m m') : m'.isHalted = m.isHalted := by
  obtain ⟨fs, hm, hk⟩ := h
  obtain ⟨k, pending, env, depth, w⟩ := m
  obtain ⟨k', pending', env', depth', w'⟩ := m'
  dsimp only at hk
  obtain ⟨-, -, -, hwaits⟩ := hm
  dsimp only at hwaits
  cases hwaits <;> cases hk <;> rfl

/-- A run does the same where local variables have another name. -/
theorem Renamed.run (h : Renamed r missed m m') (hhost : s.host.Parametric)
    (hs : s.distances = r.known) (hmissed : ∀ n id name, (m.run s n).accesses? = some (id, name) →
      r.known[id]? ≠ none → (m.run s n).holderOf? s id name = none → missed) (n : ℕ) :
    Renamed r missed (m.run s n) (m'.run s n) := by
  induction n generalizing m m' with
  | zero => exact h
  | succ n ih =>
    rw [Machine.run, Machine.run, h.isHalted_eq]
    split
    · exact h
    · rename_i hrunning
      refine ih (h.step hhost hs (hmissed 0)) fun k => ?_
      have hnext := hmissed (k + 1)
      rwa [Machine.run, if_neg hrunning] at hnext

end Machine

end Lox
