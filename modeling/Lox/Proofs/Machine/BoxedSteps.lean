import Lox.Machine.Run
import Lox.Proofs.Machine.Boxing
import Lox.Proofs.Machine.Faults
import Lox.Proofs.Machine.Parametric

/-!
Each step does the same where some statements stand in blocks of their own.

The second machine takes steps of its own to enter and to leave the blocks that were added, and a
bound on how many of them there can be before the first machine takes its next step goes down with
each.
-/

namespace Lox

namespace Machine

open Scope

variable {P : List Bool → NodeId → NodeId → Prop} {fs : Places} {marks : List Bool} {q q' : Stage}
  {m m' : Machine} {s s' : Setting} {v v' : Value} {p p' : Pending} {c c' : Closure}
  {args args' : List Value} {name site : Token} {id id' : NodeId} {e e' : Expr}

/-- Both machines run in the same surroundings, and the references in their programs lead to the
same variables. -/
structure Setting.Boxed (P : List Bool → NodeId → NodeId → Prop) (s s' : Setting) : Prop where
  host : s'.host = s.host
  parametric : s.host.Parametric
  finds : ∀ marks id id', P marks id id' → Finds s.distances s'.distances marks id id'

/-! ### Outcomes -/

namespace BoxedAround

lemma control (h : BoxedAround P fs q m m') {k k' : Control}
    (hk : Control.Boxed P fs m.env m'.env q k k') :
    Boxed P { m with control := k } { m' with control := k' } :=
  ⟨fs, q, ⟨h.depth, h.world, h.waits⟩, hk⟩

lemma give (h : BoxedAround P fs .expression m m') (hv : Value.Boxed P fs v v') :
    Boxed P (m.give v) (m'.give v') :=
  h.control (.value hv)

lemma finish (h : BoxedAround P fs q m m') : Boxed P m.finish m'.finish := h.control .done

lemma fail (h : BoxedAround P fs q m m') (f : Failure) : Boxed P (m.fail f) (m'.fail f) :=
  h.control (.exit .fail)

lemma giveResult (h : BoxedAround P fs .expression m m') {x x' : Except Failure Value}
    (hx : LikeResult (Value.Boxed P fs) x x') : Boxed P (m.giveResult x) (m'.giveResult x') := by
  cases hx with
  | ok hv => exact h.give hv
  | error => exact h.fail _

lemma wait (h : BoxedAround P fs q' m m') (hm : Layered fs marks m.env m'.env)
    (hp : Pending.Boxed P fs marks q q' p p') :
    BoxedAround P fs q { m with pending := p :: m.pending }
      { m' with pending := p' :: m'.pending } :=
  ⟨h.depth, h.world, .cons hm hp h.waits⟩

lemma await (h : BoxedAround P fs q' m m') (hm : Layered fs marks m.env m'.env)
    (hp : Pending.Boxed P fs marks q q' p p') {k k' : Control}
    (hk : Control.Boxed P fs m.env m'.env q k k') : Boxed P (m.await p k) (m'.await p' k') :=
  (h.wait hm hp).control hk

lemma awaitEval (h : BoxedAround P fs q' m m') (hm : Layered fs marks m.env m'.env)
    (hp : Pending.Boxed P fs marks .expression q' p p')
    (he : Node.Boxed P marks (.expr e) (.expr e')) :
    Boxed P (m.await p (.eval e)) (m'.await p' (.eval e')) :=
  h.await hm hp (.eval hm he)

lemma change (h : BoxedAround P fs q m m') {fs' : Places} {f f' : World → World}
    (hw : World.Boxed P fs' (f m.world) (f' m'.world)) (hfs : fs <+: fs') :
    BoxedAround P fs' q (m.change f) (m'.change f') :=
  ⟨h.depth, hw, h.waits.mono hfs⟩

/-! ### Variables -/

/-- A variable is found in frames that go with each other. -/
lemma holderOf? (h : BoxedAround P fs q m m') (hs : s.Boxed P s')
    (hm : Layered fs marks m.env m'.env) (hid : P marks id id') (name : Token) :
    Option.Rel (fun f f' => fs[f]? = some f') (m.holderOf? s id name)
      (m'.holderOf? s' id' name) := by
  have hfinds := hs.finds marks id id' hid
  unfold Machine.holderOf?
  rw [hfinds]
  cases s.distances[id]? with
  | none =>
    have hbinds := h.world.binds h.world.globals name.lexeme
    dsimp only [Option.map_none]
    unfold Frames.holder? Env.globals
    rw [List.find?_singleton, List.find?_singleton, hbinds]
    split
    · exact .some h.world.globals
    · exact .none
  | some d =>
    have hframe := hm d
    dsimp only [Option.map_some]
    unfold Frames.holderAt?
    generalize m.env[d]? = a at hframe ⊢
    generalize m'.env[outward marks d]? = a' at hframe ⊢
    cases hframe with
    | none => exact .none
    | some hf =>
      rw [Option.filter_some, Option.filter_some, h.world.binds hf name.lexeme]
      split
      · exact .some hf
      · exact .none

lemma readVariable (h : BoxedAround P fs .expression m m') (hs : s.Boxed P s')
    (hm : Layered fs marks m.env m'.env) (hid : P marks id id') (name : Token) :
    Boxed P (m.readVariable s id name) (m'.readVariable s' id' name) := by
  have hholder := h.holderOf? hs hm hid name
  rw [readVariable_eq, readVariable_eq]
  generalize m.holderOf? s id name = a at hholder ⊢
  generalize m'.holderOf? s' id' name = a' at hholder ⊢
  cases hholder with
  | none => exact h.fail _
  | @some f f' hf =>
    have hown := h.world.frames f f' hf name.lexeme
    rw [Option.bind_some, Option.bind_some]
    generalize m.world.frames.own? f name.lexeme = b at hown ⊢
    generalize m'.world.frames.own? f' name.lexeme = b' at hown ⊢
    cases hown with
    | none => exact h.fail _
    | some hv => exact h.give hv

lemma writeVariable (h : BoxedAround P fs .expression m m') (hs : s.Boxed P s')
    (hm : Layered fs marks m.env m'.env) (hid : P marks id id') (name : Token)
    (hv : Value.Boxed P fs v v') :
    Boxed P (m.writeVariable s id name v) (m'.writeVariable s' id' name v') := by
  have hholder := h.holderOf? hs hm hid name
  change Boxed P (m.writeIn (m.holderOf? s id name) name v)
    (m'.writeIn (m'.holderOf? s' id' name) name v')
  generalize m.holderOf? s id name = a at hholder ⊢
  generalize m'.holderOf? s' id' name = a' at hholder ⊢
  cases hholder with
  | none => exact h.fail _
  | @some f f' hf =>
    have hw := h.world.write hf name.lexeme hv
    exact (h.change (f := (·.write f name.lexeme v)) hw List.prefix_rfl).give hv

/-- Something is declared in the frame that both machines have. -/
lemma define (h : BoxedAround P fs q m m') (hm : Layered fs marks m.env m'.env)
    (hfirm : Firm marks) (name : Token) (hv : Value.Boxed P fs v v') :
    Boxed P (m.define name v) (m'.define name v') := by
  have hw : World.Boxed P fs (m.world.define m.env name.lexeme v)
      (m'.world.define m'.env name.lexeme v') := by
    have hhead := hm.head hfirm
    unfold World.define Frames.define
    generalize m.env = env at hhead ⊢
    generalize m'.env = env' at hhead ⊢
    cases env with
    | nil =>
      cases env' with
      | nil => exact h.world
      | cons => cases hhead
    | cons f env =>
      cases env' with
      | nil => cases hhead
      | cons f' env' =>
        cases hhead with
        | some hf => exact h.world.write hf name.lexeme hv
  exact (h.change hw List.prefix_rfl).finish

/-! ### Calls -/

lemma place_next (h : BoxedAround P fs q m m') :
    (fs ++ [m'.world.frames.next])[m.world.frames.next]? = some m'.world.frames.next := by
  rw [h.world.next, List.getElem?_concat_length]

lemma enter (h : BoxedAround P fs .expression m m') (hc : Closure.Boxed P [] fs c c')
    (hargs : List.Forall₂ (Value.Boxed P fs) args args') (site : Token) :
    Boxed P (m.enter c args site) (m'.enter c' args' site) := by
  obtain ⟨around, sort, henv, -, hcode⟩ := hc.code
  obtain ⟨-, hparams, hbody⟩ := hcode.function_inv
  unfold Machine.enter
  rw [h.depth]
  split
  · exact h.fail _
  · have hgrown : fs <+: fs ++ [m'.world.frames.next] := List.prefix_append ..
    have hw := h.world.addFrame (rel_parameterFrame Function.injective_id (g := id) (fun _ => rfl)
      hargs c.decl.paramList)
    rw [List.map_id] at hw
    have hlist : c'.decl.paramList = c.decl.paramList := congrArg (·.getD []) hparams
    rw [hlist]
    exact ⟨_, .body, ⟨rfl, hw, .leaveCall (hc.mono hgrown) (h.waits.mono hgrown)⟩,
      .execAll ((henv.mono hgrown).cons h.place_next) hbody⟩

lemma left (h : BoxedAround P fs q m m') :
    BoxedAround P fs q { m with depth := m.depth - 1 } { m' with depth := m'.depth - 1 } :=
  ⟨congrArg (· - 1) h.depth, h.world, h.waits⟩

/-- A call ends in the environment in which the rest waits. -/
lemma leave (h : BoxedAround P fs .expression m m') (hc : Closure.Boxed P [] fs c c')
    (hv : Value.Boxed P fs v v') : Boxed P (m.leave m.env c v) (m'.leave m'.env c' v') := by
  obtain ⟨around, sort, henv, hfirm, hcode⟩ := hc.code
  obtain ⟨hname, -⟩ := hcode.function_inv
  have hthis : Option.Rel (Value.Boxed P fs) (m.world.frames.getAt? c.env 0 "this")
      (m'.world.frames.getAt? c'.env 0 "this") := by
    have hhead := henv.head hfirm
    unfold Frames.getAt?
    generalize c.env[0]? = a at hhead ⊢
    generalize c'.env[0]? = a' at hhead ⊢
    cases hhead with
    | none => exact .none
    | some hf => exact h.world.frames _ _ hf "this"
  unfold Machine.leave
  dsimp only
  rw [hc.isInitializer, hname]
  split
  · generalize m.world.frames.getAt? c.env 0 "this" = a at hthis ⊢
    generalize m'.world.frames.getAt? c'.env 0 "this" = a' at hthis ⊢
    cases hthis with
    | none => exact h.left.fail _
    | some hthis => exact h.left.give hthis
  · exact h.left.give hv

lemma bind (h : BoxedAround P fs q m m') (hv : Value.Boxed P fs v v') :
    BoxedAround P (fs ++ [m'.world.frames.next]) q (m.bind v) (m'.bind v') :=
  h.change (h.world.addFrame (rel_thisFrame hv)) (List.prefix_append ..)

lemma within_next (h : BoxedAround P fs q m m') (hc : Closure.Boxed P [false] fs c c') :
    Closure.Boxed P [] (fs ++ [m'.world.frames.next]) (c.within m.world.frames.next)
      (c'.within m'.world.frames.next) :=
  (hc.mono (List.prefix_append ..)).within h.place_next

lemma construct (h : BoxedAround P fs .expression m m') {k k' : ClassInfo}
    (hk : k.Like (Closure.Boxed P [false] fs) k') (hm : Layered fs marks m.env m'.env)
    (hargs : List.Forall₂ (Value.Boxed P fs) args args') (site : Token) :
    Boxed P (m.construct k args site) (m'.construct k' args' site) := by
  have howner := h.change (f := (·.addOwner)) h.world.addOwner List.prefix_rfl
  have hobject : Value.Boxed P fs (.object m.world.nextOwner k)
      (.object m'.world.nextOwner k') := by
    rw [h.world.nextOwner]
    exact .object hk
  have hinit := hk.methods initName
  unfold Machine.construct ClassInfo.initializer?
  dsimp only
  generalize k.methods.get? initName = f at hinit ⊢
  generalize k'.methods.get? initName = f' at hinit ⊢
  cases hinit with
  | none => exact howner.give hobject
  | some hf =>
    have hgrown : fs <+: fs ++ [m'.world.frames.next] := List.prefix_append ..
    have hbound := howner.bind hobject
    have hwaiting := hbound.wait (hm.mono hgrown) (.construct (hobject.mono hgrown))
    exact hwaiting.enter (howner.within_next hf) (hargs.imp fun _ _ hv => hv.mono hgrown) site

lemma invoke (h : BoxedAround P fs .expression m m') (hs : s.Boxed P s')
    (hm : Layered fs marks m.env m'.env) (hv : Value.Boxed P fs v v')
    (hargs : List.Forall₂ (Value.Boxed P fs) args args') (paren : Token) :
    Boxed P (m.invoke s v args paren) (m'.invoke s' v' args' paren) := by
  cases hv with
  | @native n =>
    have hanswer := hs.parametric.like (fun _ _ hc => hc.looksLike) (fun _ _ hc => hc.looksLike)
      n.name hargs
    dsimp only [Machine.invoke]
    rw [hs.host]
    generalize s.host n.name args = x at hanswer ⊢
    generalize s.host n.name args' = x' at hanswer ⊢
    cases hanswer with
    | ok hv => exact h.give hv
    | error => exact h.fail _
  | function hc => exact h.enter hc hargs paren
  | classValue hk => exact h.construct hk hm hargs paren
  | _ => exact h.fail _

lemma call (h : BoxedAround P fs .expression m m') (hs : s.Boxed P s')
    (hm : Layered fs marks m.env m'.env) (hv : Value.Boxed P fs v v')
    (hargs : List.Forall₂ (Value.Boxed P fs) args args') (paren : Token) :
    Boxed P (m.call s v args paren) (m'.call s' v' args' paren) := by
  unfold Machine.call
  rw [hv.arity?, hargs.length_eq]
  split
  · exact h.fail _
  · split
    · exact h.invoke hs hm hv hargs paren
    · exact h.fail _

lemma nextArgument (h : BoxedAround P fs .expression m m') (hs : s.Boxed P s')
    (hm : Layered fs marks m.env m'.env) (hv : Value.Boxed P fs v v')
    (hargs : List.Forall₂ (Value.Boxed P fs) args args') (paren : Token) {es es' : List Expr}
    (hes : Node.Boxed P marks (.exprs es) (.exprs es')) :
    Boxed P (m.nextArgument s v paren args es) (m'.nextArgument s' v' paren args' es') := by
  cases hes with
  | noExprs => exact h.call hs hm hv (List.forall₂_reverse_iff.mpr hargs) paren
  | exprs he hes => exact h.awaitEval hm (.argument hv hargs hes) he

/-! ### Properties -/

lemma giveMethod (h : BoxedAround P fs .expression m m') (hv : Value.Boxed P fs v v')
    (hc : Closure.Boxed P [false] fs c c') (name : Token) :
    Boxed P (m.giveMethod v c name) (m'.giveMethod v' c' name) := by
  have hbound := h.bind hv
  have hwithin := h.within_next hc
  obtain ⟨around, sort, -, -, hcode⟩ := hc.code
  obtain ⟨-, hparams, -⟩ := hcode.function_inv
  have hgetter : c'.decl.isGetter = c.decl.isGetter := congrArg Option.isNone hparams
  unfold Machine.giveMethod
  dsimp only
  rw [hgetter]
  split
  · exact hbound.enter hwithin .nil name
  · have hcounted := hbound.change (f := (·.addFunction)) hbound.world.addFunction List.prefix_rfl
    refine hcounted.give ?_
    rw [hbound.world.functions]
    exact .function hwithin

lemma readMember (h : BoxedAround P fs .expression m m') (owner : ℕ) (hv : Value.Boxed P fs v v')
    {f f' : Option Closure} (hf : Option.Rel (Closure.Boxed P [false] fs) f f') (name : Token) :
    Boxed P (m.readMember owner v f name) (m'.readMember owner v' f' name) := by
  have hfield := h.world.fields owner name.lexeme
  unfold Machine.readMember
  generalize m.world.field? owner name.lexeme = a at hfield ⊢
  generalize m'.world.field? owner name.lexeme = a' at hfield ⊢
  cases hfield with
  | some ha => exact h.give ha
  | none =>
    cases hf with
    | none => exact h.fail _
    | some hc => exact h.giveMethod hv hc name

lemma readProperty (h : BoxedAround P fs .expression m m') (hv : Value.Boxed P fs v v')
    (name : Token) : Boxed P (m.readProperty v name) (m'.readProperty v' name) := by
  cases hv with
  | object hk => exact h.readMember _ (.object hk) (hk.methods name.lexeme) name
  | classValue hk => exact h.readMember _ (.classValue hk) (hk.statics name.lexeme) name
  | _ => exact h.fail _

lemma takeTarget (h : BoxedAround P fs .expression m m') (hm : Layered fs marks m.env m'.env)
    (hv : Value.Boxed P fs v v') (name : Token) (he : Node.Boxed P marks (.expr e) (.expr e')) :
    Boxed P (m.takeTarget v name e) (m'.takeTarget v' name e') := by
  cases hv with
  | object => exact h.awaitEval hm .field he
  | classValue => exact h.awaitEval hm .field he
  | _ => exact h.fail _

/-! ### Declarations -/

lemma declareFunction (h : BoxedAround P fs q m m') (hm : Layered fs marks m.env m'.env)
    (hfirm : Firm marks) {d d' : FunctionDecl}
    (hd : Node.Boxed P marks (.function .function d) (.function .function d')) :
    Boxed P (m.declareFunction d) (m'.declareFunction d') := by
  have hcounted := h.change (f := (·.addFunction)) h.world.addFunction List.prefix_rfl
  have hc : Closure.Boxed P [] fs ⟨d, m.env, false⟩ ⟨d', m'.env, false⟩ :=
    ⟨rfl, marks, .function, hm, hfirm, hd⟩
  have hf : Value.Boxed P fs (.function m.world.functions ⟨d, m.env, false⟩)
      (.function m.world.functions ⟨d', m'.env, false⟩) := .function hc
  obtain ⟨hname, -⟩ := hd.function_inv
  unfold Machine.declareFunction
  dsimp only
  rw [hname, h.world.functions]
  exact hcounted.define hm hfirm d.name hf

end BoxedAround

lemma boxed_methods {ds ds' : List FunctionDecl}
    (h : Node.Boxed P marks (.methods ds) (.methods ds')) :
    List.Forall₂ (fun d d' => ∃ sort,
      Node.Boxed P marks (.function sort d) (.function sort d')) ds ds' := by
  induction ds generalizing ds' with
  | nil =>
    cases h
    exact .nil
  | cons d ds ih =>
    cases h with
    | method hd hds => exact .cons ⟨_, hd⟩ (ih hds)

lemma boxed_statics {ds ds' : List FunctionDecl}
    (h : Node.Boxed P marks (.statics ds) (.statics ds')) :
    List.Forall₂ (fun d d' => ∃ sort,
      Node.Boxed P marks (.function sort d) (.function sort d')) ds ds' := by
  induction ds generalizing ds' with
  | nil =>
    cases h
    exact .nil
  | cons d ds ih =>
    cases h with
    | static hd hds => exact .cons ⟨_, hd⟩ (ih hds)

lemma likeMembers_boxed {env env' : Env} (hm : Layered fs marks env env')
    {ds ds' : List FunctionDecl} (h : List.Forall₂ (fun d d' => ∃ sort,
      Node.Boxed P (false :: marks) (.function sort d) (.function sort d')) ds ds') :
    LikeMembers (Closure.Boxed P [false] fs) env env' ds ds' :=
  h.imp fun _ _ ⟨sort, hd⟩ => ⟨hd.function_inv.1, fun _ => ⟨rfl, marks, sort, hm, firm_cons, hd⟩⟩

namespace BoxedAround

lemma declareClass (h : BoxedAround P fs q m m') (hm : Layered fs marks m.env m'.env)
    (hfirm : Firm marks) (name : Token) {ms ms' ss ss' : List FunctionDecl}
    (hms : Node.Boxed P (false :: marks) (.methods ms) (.methods ms'))
    (hss : Node.Boxed P (false :: marks) (.statics ss) (.statics ss')) :
    Boxed P (m.declareClass name ms ss) (m'.declareClass name ms' ss') := by
  have howner := h.change (f := (·.addOwner)) h.world.addOwner List.prefix_rfl
  have hms' := likeMembers_boxed hm (boxed_methods hms)
  have hss' := likeMembers_boxed hm (boxed_statics hss)
  have hv : Value.Boxed P fs (.classValue m.world.nextOwner _) (.classValue m.world.nextOwner _) :=
    .classValue (hms'.likeClass hss' name.lexeme)
  unfold Machine.declareClass
  dsimp only
  rw [h.world.nextOwner]
  exact howner.define hm hfirm name hv

/-! ### Statements and expressions -/

lemma printLine (h : BoxedAround P fs q m m') (hv : Value.Boxed P fs v v') :
    Boxed P (m.printLine v) (m'.printLine v') := by
  have hput : BoxedAround P fs q (m.change (·.put (v.text ++ "\n").toUTF8))
      (m'.change (·.put (v.text ++ "\n").toUTF8)) := h.change (h.world.put _) List.prefix_rfl
  unfold Machine.printLine
  dsimp only
  rw [hv.text, h.world.sink]
  split
  · exact hput.finish
  · exact hput.fail _

lemma openBlock (h : BoxedAround P fs .statement m m') (hm : Layered fs marks m.env m'.env)
    {body body' : List Stmt} (hbody : Node.Boxed P (false :: marks) (.stmts body) (.stmts body')) :
    Boxed P (m.openBlock body) (m'.openBlock body') := by
  have hgrown : fs <+: fs ++ [m'.world.frames.next] := List.prefix_append ..
  have hw : World.Boxed P (fs ++ [m'.world.frames.next]) (m.world.addFrame [])
      (m'.world.addFrame []) := h.world.addFrame fun _ => .none
  exact ⟨_, .body, ⟨h.depth, hw, .leaveBlock (h.waits.mono hgrown)⟩,
    .execAll ((hm.mono hgrown).cons h.place_next) hbody⟩

/-- The second machine enters a block that was added. -/
lemma openAdded (h : BoxedAround P fs .statement m m') (hm : Layered fs marks m.env m'.env)
    {d d' : Stmt} (hd : Node.Boxed P (true :: marks) (.stmt d) (.stmt d'))
    (hk : m.control = .exec d) : Boxed P m (m'.openBlock [d']) := by
  refine ⟨fs, .statement, ⟨h.depth, h.world.addEmpty, .addedBlock h.waits⟩, ?_⟩
  rw [hk]
  exact .entered (hm.added _) hd

lemma evalStep (h : BoxedAround P fs .expression m m') (hs : s.Boxed P s')
    (hm : Layered fs marks m.env m'.env) (he : Node.Boxed P marks (.expr e) (.expr e')) :
    Boxed P (m.evalStep s e) (m'.evalStep s' e') := by
  cases he with
  | @literal _ l => cases l <;> exact h.give (by constructor)
  | group he => exact h.control (.eval hm he)
  | unary he => exact h.awaitEval hm .unary he
  | binary hl he => exact h.awaitEval hm (.binaryLeft he) hl
  | logical hl he => exact h.awaitEval hm (.logical he) hl
  | conditional hc ht he => exact h.awaitEval hm (.conditional ht he) hc
  | reference hid => exact h.readVariable hs hm hid _
  | assign hid he => exact h.awaitEval hm (.assign hid) he
  | call hf hes => exact h.awaitEval hm (.callee hes) hf
  | property he => exact h.awaitEval hm .property he
  | setProperty ho he => exact h.awaitEval hm (.target he) ho
  | this hid => exact h.readVariable hs hm hid _

/-- What waits in the current environment takes a value. -/
lemma receive (h : BoxedAround P fs q' m m') (hs : s.Boxed P s')
    (hm : Layered fs marks m.env m'.env) (hp : Pending.Boxed P fs marks q q' p p')
    (hv : Value.Boxed P fs v v') : Boxed P (m.receive s p v) (m'.receive s' p' v') := by
  cases hp with
  | @unary op => exact h.giveResult (Operator.like_unary op hv)
  | binaryLeft he => exact h.awaitEval hm (.binaryRight hv) he
  | @binaryRight l l' op hl =>
    exact h.giveResult (Operator.like_binary op (fun _ _ hc => hc.looksLike) hl hv)
  | @logical op e e' he =>
    dsimp only [Machine.receive]
    rw [Operator.decides_eq op hv]
    split
    · exact h.give hv
    · exact h.control (.eval hm he)
  | conditional ht he =>
    dsimp only [Machine.receive]
    rw [hv.isTruthy_eq]
    split
    · exact h.control (.eval hm ht)
    · exact h.control (.eval hm he)
  | assign hid => exact h.writeVariable hs hm hid _ hv
  | callee hes => exact h.nextArgument hs hm hv .nil _ hes
  | argument hf hfound hes => exact h.nextArgument hs hm hf (.cons hv hfound) _ hes
  | property => exact h.readProperty hv _
  | target he => exact h.takeTarget hm hv _ he
  | @field owner name =>
    exact (h.change (f := (·.setField owner name.lexeme v)) (h.world.setField _ _ hv)
      List.prefix_rfl).give hv
  | construct hobject => exact h.give hobject
  | discard => exact h.finish
  | print => exact h.printLine hv
  | declare hfirm => exact h.define hm hfirm _ hv
  | ifThen ht =>
    dsimp only [Machine.receive]
    rw [hv.isTruthy_eq]
    split
    · exact h.control (.exec hm ht)
    · exact h.finish
  | ifElse ht he =>
    dsimp only [Machine.receive]
    rw [hv.isTruthy_eq]
    split
    · exact h.control (.exec hm ht)
    · exact h.control (.exec hm he)
  | loopTest hc hbody =>
    dsimp only [Machine.receive]
    rw [hv.isTruthy_eq]
    split
    · exact h.await hm (.loopBody hc hbody) (.exec hm hbody)
    · exact h.finish
  | giveBack => exact h.control (.exit (.leaveCall hv))
  | loopBody hc hbody => exact h.awaitEval hm (.loopTest hc hbody) hc
  | sequence hrest => exact h.control (.execAll hm hrest)

/-- Unless it is a block that was added, both machines take the same step on a statement. -/
lemma execStep (h : BoxedAround P fs .statement m m') (hm : Layered fs marks m.env m'.env)
    {d d' : Stmt} (hd : Node.Boxed P marks (.stmt d) (.stmt d')) (hk : m.control = .exec d) :
    Boxed P (m.execStep d) (m'.execStep d') ∨
      ∃ b, d' = .block [b] ∧ Boxed P m (m'.openBlock [b]) := by
  cases hd with
  | expression he => exact .inl (h.awaitEval hm .discard he)
  | print he => exact .inl (h.awaitEval hm .print he)
  | bare hfirm => exact .inl (h.define hm hfirm _ .nil)
  | initialized hfirm he => exact .inl (h.awaitEval hm (.declare hfirm) he)
  | block hbody => exact .inl (h.openBlock hm hbody)
  | ifThen hc ht => exact .inl (h.awaitEval hm (.ifThen ht) hc)
  | ifElse hc ht he => exact .inl (h.awaitEval hm (.ifElse ht he) hc)
  | loop hc hbody => exact .inl (h.awaitEval hm (.loopTest hc hbody) hc)
  | breakLoop => exact .inl (h.control (.exit .leaveLoop))
  | function hfirm hd => exact .inl (h.declareFunction hm hfirm hd)
  | returnNothing => exact .inl (h.control (.exit (.leaveCall .nil)))
  | returnValue he => exact .inl (h.awaitEval hm .giveBack he)
  | classDecl hfirm hms hss => exact .inl (h.declareClass hm hfirm _ hms hss)
  | boxed hd => exact .inr ⟨_, rfl, h.openAdded hm hd hk⟩

end BoxedAround

/-! ### Steps -/

/-- A bound on the steps that the second machine can take alone from here on. -/
noncomputable def lag (m : Machine) : ℕ :=
  match m.control with
  | .exec d => sizeOf d
  | .execAll [] => 2 * m.pending.length + 1
  | .execAll (d :: ds) => sizeOf (d :: ds)
  | _ => 2 * m.pending.length

/-- Both machines take the same step, or the second one takes a step alone. -/
def Advances (P : List Bool → NodeId → NodeId → Prop) (s s' : Setting) (m m' : Machine) : Prop :=
  Boxed P (m.step s) (m'.step s') ∨ Boxed P m (m'.step s') ∧ (m'.step s').lag < m'.lag

section
variable {ps ps' : List Pending} {env env' : Env} {depth depth' : ℕ} {w w' : World}

/-- What waits first takes a value. -/
lemma advances_value (hdepth : depth' = depth) (hw : World.Boxed P fs w w')
    (hwaits : WaitsBoxed P fs q env env' ps ps') (hs : s.Boxed P s') (hv : Value.Boxed P fs v v')
    (hdone : q = .expression ∨ v = .nil ∧ v' = .nil) :
    Advances P s s' ⟨.value v, ps, env, depth, w⟩ ⟨.value v', ps', env', depth', w'⟩ := by
  have hleft {q : Stage} {ps ps' : List Pending} {env env' : Env}
      (hwaits : WaitsBoxed P fs q env env' ps ps') : BoxedAround P fs q
        ⟨.value v, ps, env, depth, w⟩ ⟨.value v', ps', env', depth', w'⟩ := ⟨hdepth, hw, hwaits⟩
  cases hwaits with
  | value => exact .inl ⟨fs, .expression, hleft .value, .value hv⟩
  | finish =>
    obtain ⟨rfl, rfl⟩ := hdone.resolve_left nofun
    exact .inl ⟨fs, .body, hleft .finish, .done⟩
  | cons hm hp hps => exact .inl ((hleft hps).receive hs hm hp hv)
  | leaveBlock hps => exact .inl (hleft hps).finish
  | leaveCall hc hps => exact .inl ((hleft hps).leave hc .nil)
  | @addedEnd _ _ _ ps' hps =>
    obtain ⟨rfl, rfl⟩ := hdone.resolve_left nofun
    refine .inr ⟨⟨fs, .statement, ⟨hdepth, hw, hps⟩, .passed⟩, ?_⟩
    change 2 * ps'.length + 1 < 2 * (ps'.length + 1)
    omega
  | @addedBlock _ _ _ _ ps' hps =>
    obtain ⟨rfl, rfl⟩ := hdone.resolve_left nofun
    refine .inr ⟨⟨fs, .statement, ⟨hdepth, hw, hps⟩, .done⟩, ?_⟩
    change 2 * ps'.length < 2 * (ps'.length + 1)
    omega

/-- A way out passes what waits first, and ends loops and calls. -/
lemma advances_exit {x x' : Exit} (hdepth : depth' = depth) (hw : World.Boxed P fs w w')
    (hwaits : WaitsBoxed P fs q env env' ps ps') (hx : Exit.Boxed P fs x x') :
    Advances P s s' ⟨.exit x, ps, env, depth, w⟩ ⟨.exit x', ps', env', depth', w'⟩ := by
  have hleft {q : Stage} {ps ps' : List Pending} {env env' : Env}
      (hwaits : WaitsBoxed P fs q env env' ps ps') : BoxedAround P fs q
        ⟨.exit x, ps, env, depth, w⟩ ⟨.exit x', ps', env', depth', w'⟩ := ⟨hdepth, hw, hwaits⟩
  cases hwaits with
  | value => exact .inl ⟨fs, .expression, hleft .value, .exit hx⟩
  | finish => exact .inl ⟨fs, .body, hleft .finish, .exit hx⟩
  | @cons _ _ _ _ _ p p' ps ps' hm hp hps =>
    left
    -- only a loop stops something that is no call
    by_cases hloop : (∃ e body, p = .loopBody e body) ∧ x = .leaveLoop
    · obtain ⟨⟨e, body, rfl⟩, rfl⟩ := hloop
      cases hp
      cases hx
      exact (hleft hps).finish
    · have hpast := (hleft hps).control (.exit hx)
      cases hp <;> cases hx <;> first | exact hpast | exact absurd ⟨⟨_, _, rfl⟩, rfl⟩ hloop
  | leaveBlock hps => exact .inl ((hleft hps).control (.exit hx))
  | leaveCall hc hps =>
    have hpast := (hleft hps).left.control (.exit hx)
    left
    cases hx with
    | leaveCall hv => exact (hleft hps).leave hc hv
    | leaveLoop => exact hpast
    | fail => exact hpast
  | @addedEnd _ _ _ ps' hps =>
    refine .inr ⟨⟨fs, .statement, ⟨hdepth, hw, hps⟩, .exit hx⟩, ?_⟩
    change 2 * ps'.length < 2 * (ps'.length + 1)
    omega
  | @addedBlock _ _ _ _ ps' hps =>
    refine .inr ⟨⟨fs, .statement, ⟨hdepth, hw, hps⟩, .exit hx⟩, ?_⟩
    change 2 * ps'.length < 2 * (ps'.length + 1)
    omega

end

/-- A step of the second machine is one of the first machine too, or one of the finitely many that
it takes to enter or to leave an added block. -/
theorem Boxed.advances (h : Boxed P m m') (hs : s.Boxed P s') : Advances P s s' m m' := by
  obtain ⟨fs, q, hm, hk⟩ := h
  obtain ⟨k, ps, env, depth, w⟩ := m
  obtain ⟨k', ps', env', depth', w'⟩ := m'
  dsimp only at hk
  cases hk with
  | eval henv he => exact .inl (hm.evalStep hs henv he)
  | exec henv hd =>
    obtain hstep | ⟨b, rfl, hopened⟩ := hm.execStep henv hd rfl
    · exact .inl hstep
    · refine .inr ⟨hopened, ?_⟩
      change sizeOf [b] < sizeOf (Stmt.block [b])
      rw [Stmt.block.sizeOf_spec]
      omega
  | @entered marks d d' henv hd =>
    refine .inr ⟨⟨fs, .statement, ⟨hm.depth, hm.world, .addedEnd hm.waits⟩, .exec henv hd⟩, ?_⟩
    change sizeOf d' < sizeOf [d']
    rw [List.cons.sizeOf_spec]
    omega
  | execAll henv hbody =>
    cases hbody with
    | nil => exact .inl hm.finish
    | cons hd hds => exact .inl (hm.await henv (.sequence hds) (.exec henv hd))
  | value hv => exact advances_value hm.depth hm.world hm.waits hs hv (.inl rfl)
  | done => exact advances_value hm.depth hm.world hm.waits hs .nil (.inr ⟨rfl, rfl⟩)
  | passed =>
    refine .inr ⟨⟨fs, .statement, ⟨hm.depth, hm.world, hm.waits⟩, .done⟩, ?_⟩
    change 2 * _ < 2 * _ + 1
    exact Nat.lt_succ_self _
  | exit hx => exact advances_exit hm.depth hm.world hm.waits hx

/-- Something waits for a statement that is done. -/
lemma WaitsBoxed.ne_nil {env env' : Env} {ps ps' : List Pending}
    (h : WaitsBoxed P fs .statement env env' ps ps') : ps ≠ [] ∧ ps' ≠ [] := by
  generalize hq : Stage.statement = q at h
  induction h with
  | cons => exact ⟨List.cons_ne_nil _ _, List.cons_ne_nil _ _⟩
  | addedEnd _ ih => exact ⟨(ih rfl).1, List.cons_ne_nil _ _⟩
  | addedBlock _ ih => exact ⟨(ih rfl).1, List.cons_ne_nil _ _⟩
  | _ => cases hq

lemma WaitsBoxed.eq_nil_iff {env env' : Env} {ps ps' : List Pending}
    (h : WaitsBoxed P fs q env env' ps ps') : ps' = [] ↔ ps = [] := by
  cases h with
  | addedEnd h => simp [h.ne_nil.1]
  | addedBlock h => simp [h.ne_nil.1]
  | _ => simp

/-- The result of a run that is at its end. -/
lemma Boxed.result_like (h : Boxed P m m') :
    Option.Rel (LikeResult (fun v v' => ∃ fs, Value.Boxed P fs v v')) m.result? m'.result? := by
  obtain ⟨fs, q, hm, hk⟩ := h
  obtain ⟨k, ps, env, depth, w⟩ := m
  obtain ⟨k', ps', env', depth', w'⟩ := m'
  have hnil := hm.waits.eq_nil_iff
  have hwaits := hm.waits
  dsimp only at hk hnil hwaits
  by_cases hps : ps = []
  · obtain rfl := hnil.mpr hps
    subst hps
    cases hk with
    | value hv => exact .some (.ok ⟨fs, hv⟩)
    | done => exact .some (.ok ⟨fs, .nil⟩)
    | exit hx => cases hx <;> exact .some .error
    | passed => exact absurd rfl hwaits.ne_nil.1
    | _ => exact .none
  · have hps' := mt hnil.mp hps
    unfold result?
    cases ps with
    | nil => exact absurd rfl hps
    | cons =>
      cases ps' with
      | nil => exact absurd rfl hps'
      | cons => exact .none

/-! ### Runs -/

lemma Boxed.sink_eq (h : Boxed P m m') : m'.world.sink = m.world.sink := by
  obtain ⟨fs, q, hm, -⟩ := h
  exact hm.world.sink

/-- The second machine comes to where the first one is after its next step. -/
lemma Boxed.catches_up (h : Boxed P m m') (hs : s.Boxed P s') :
    ∃ n, Boxed P (m.step s) (m'.run s' n) := by
  induction hlag : m'.lag using Nat.strong_induction_on generalizing m' with
  | _ k ih =>
    obtain hstep | ⟨hstep, hless⟩ := h.advances hs
    · exact ⟨1, run_succ s' 0 m' ▸ hstep⟩
    · obtain ⟨n, hn⟩ := ih _ (hlag ▸ hless) hstep rfl
      exact ⟨1 + n, by rwa [run_add, run_succ s' 0 m']⟩

/-- However far the first machine runs, the second one comes to the same point. -/
theorem Boxed.run (h : Boxed P m m') (hs : s.Boxed P s') (n : ℕ) :
    ∃ n', Boxed P (m.run s n) (m'.run s' n') := by
  induction n with
  | zero => exact ⟨0, h⟩
  | succ n ih =>
    obtain ⟨n', hn'⟩ := ih
    obtain ⟨k, hk⟩ := hn'.catches_up hs
    exact ⟨n' + k, by rwa [run_add s' n' k, run_succ]⟩

end Machine

end Lox
