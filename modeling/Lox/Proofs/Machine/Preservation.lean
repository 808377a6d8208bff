import Lox.Proofs.Machine.Invariant

/-!
Each step of the machine keeps the invariant.

A step creates at most two frames, each for a scope that is opened there, and gives a name a value
only where a declaration of that name runs.
-/

namespace Lox

namespace Machine

open Scope

variable {x : Scene} {m : Machine} {S : Shape} {env : Env} {w : World}

/-! ### Worlds that change -/

/-- A scene in which a variable of a frame is written. -/
def Scene.write (x : Scene) (f : FrameId) (name : String) (v : Value) : Scene :=
  { x with frames := x.frames.write f name v }

/-- A scene with one more frame. -/
def Scene.push (x : Scene) (y : Region) (t : Table Value) : Scene :=
  { x with
    labels := x.labels ++ [some y]
    globals := label_of_grown x.globals (List.prefix_append ..)
    frames := x.frames.push t }

lemma Scene.grows_write {f h : FrameId} {name : String} {v : Value}
    (hf : h ≤ f ∨ x.frames.binds name f) : x.Grows h (x.write f name v) where
  inputs := List.Subset.refl _
  labels := List.prefix_rfl
  binds name' g hg := Frames.binds_write.mpr (.inr hg)
  same name' g hg hbinds := by
    rcases Frames.binds_write.mp hbinds with ⟨rfl, rfl, -⟩ | h
    · exact hf.resolve_left (not_le.mpr hg)
    · exact h

lemma Scene.grows_push {y : Region} {t : Table Value} {h : FrameId} (hh : h ≤ x.frames.next) :
    x.Grows h (x.push y t) where
  inputs := List.Subset.refl _
  labels := List.prefix_append ..
  binds name g hg := Frames.binds_push.mpr (.inr hg)
  same name g hg hbinds := by
    rcases Frames.binds_push.mp hbinds with ⟨rfl, -⟩ | h
    · exact absurd hg (not_lt.mpr hh)
    · exact h

namespace WorldOk

/-- Functions and output do not matter. -/
lemma of_eq {w' : World} (h : WorldOk x w) (hframes : w'.frames = w.frames)
    (hfields : w'.fields = w.fields) : WorldOk x w' where
  frames := hframes.trans h.frames
  length := hframes ▸ h.length
  declared := hframes ▸ h.declared
  this := hframes ▸ h.this
  values := hframes ▸ h.values
  fields owner name v hv := h.fields owner name v (by rwa [World.field?, hfields] at hv)

lemma addOwner (h : WorldOk x w) : WorldOk x w.addOwner where
  frames := h.frames
  length := h.length
  declared := h.declared
  this := h.this
  values := h.values
  fields owner name v hv := h.fields owner name v (w.field?_addOwner owner name ▸ hv)

lemma setField (h : WorldOk x w) {owner : ℕ} {name : String} {v : Value} (hv : ValueOk x v) :
    WorldOk x (w.setField owner name v) where
  frames := h.frames
  length := h.length
  declared := h.declared
  this := h.this
  values := h.values
  fields owner' name' v' hv' := by
    rw [World.field?_setField] at hv'
    split at hv'
    · exact Option.some.inj hv' ▸ hv
    · exact h.fields owner' name' v' hv'

lemma write (h : WorldOk x w) {f : FrameId} {name : String} {v : Value}
    (hname : w.frames.binds name f ∨
      ∀ y, x.labels[f]? = some (some y) → y.Declares name ∧ ¬y.IsThis)
    (hv : ValueOk (x.write f name v) v) : WorldOk (x.write f name v) (w.write f name v) where
  frames := congrArg (·.write f name v) h.frames
  length := h.length.trans (Frames.next_write ..).symm
  declared g y name' hy hbinds := by
    rcases Frames.binds_write.mp hbinds with ⟨rfl, rfl, -⟩ | hbinds
    · rcases hname with hname | hname
      · exact h.declared f y name hy hname
      · exact (hname y hy).1
    · exact h.declared g y name' hy hbinds
  this g y hy hthis name' := by
    rw [← h.this g y hy hthis name']
    refine ⟨fun hbinds => ?_, fun hbinds => Frames.binds_write.mpr (.inr hbinds)⟩
    rcases Frames.binds_write.mp hbinds with ⟨rfl, rfl, -⟩ | hbinds
    · rcases hname with hname | hname
      · exact hname
      · exact absurd hthis (hname y hy).2
    · exact hbinds
  values g name' v' hv' := by
    have hframes : (w.write f name v).frames = w.frames.write f name v := rfl
    rw [hframes, Frames.own?_write] at hv'
    split at hv'
    · exact Option.some.inj hv' ▸ hv
    · have hg : x.Grows 0 (x.write f name v) := Scene.grows_write (.inl (Nat.zero_le f))
      exact (h.values g name' v' hv').mono hg
  fields owner name' v' hv' := by
    have hg : x.Grows 0 (x.write f name v) := Scene.grows_write (.inl (Nat.zero_le f))
    exact (h.fields owner name' v' hv').mono hg

lemma addFrame (h : WorldOk x w) {y : Region} {t : Table Value}
    (hdeclared : ∀ name, t.contains name → y.Declares name)
    (hthis : y.IsThis → ∀ name, t.contains name ↔ name = "this")
    (hvalues : ∀ name v, t.get? name = some v → ValueOk x v) :
    WorldOk (x.push y t) (w.addFrame t) := by
  have hg : x.Grows 0 (x.push y t) := Scene.grows_push (Nat.zero_le _)
  have hpush : (w.addFrame t).frames = w.frames.push t := rfl
  -- a label is an old one, or that of the new frame
  have hlabel : ∀ {g z}, (x.push y t).labels[g]? = some (some z) →
      x.labels[g]? = some (some z) ∨ g = w.frames.next ∧ z = y := by
    intro g z hz
    unfold Scene.push at hz
    rw [List.getElem?_append] at hz
    split at hz
    · exact .inl hz
    · rename_i hlt
      have hle : x.labels.length ≤ g := not_lt.mp hlt
      rw [← h.length]
      cases hk : g - x.labels.length with
      | zero =>
        rw [hk] at hz
        have hz : some y = some z := Option.some.inj hz
        exact .inr ⟨le_antisymm (Nat.sub_eq_zero_iff_le.mp hk) hle, (Option.some.inj hz).symm⟩
      | succ k => rw [hk] at hz; exact nomatch hz
  have hold : ∀ {g z}, x.labels[g]? = some (some z) → g ≠ w.frames.next := by
    intro g z hz
    have hlt := (List.getElem?_eq_some_iff.mp hz).1
    rw [← h.length]
    exact hlt.ne
  have hnew : ∀ name, ¬w.frames.binds name w.frames.next :=
    fun name hbinds => absurd (Frames.lt_next_of_binds hbinds) (lt_irrefl _)
  refine ⟨congrArg (·.push t) h.frames, ?_, ?_, ?_, ?_, ?_⟩
  · rw [hpush, Frames.next_push, ← h.length]
    exact List.length_append
  · intro g z name hz hbinds
    rcases hlabel hz with hz | ⟨rfl, rfl⟩
    · rcases Frames.binds_push.mp hbinds with ⟨hg, -⟩ | hbinds
      · exact absurd hg (hold hz)
      · exact h.declared g z name hz hbinds
    · rcases Frames.binds_push.mp hbinds with ⟨-, hbinds⟩ | hbinds
      · exact hdeclared name hbinds
      · exact absurd hbinds (hnew name)
  · intro g z hz hzthis name
    rw [hpush, Frames.binds_push]
    rcases hlabel hz with hz | ⟨rfl, rfl⟩
    · rw [← h.this g z hz hzthis name]
      exact ⟨fun hb => hb.resolve_left fun hb => hold hz hb.1, .inr⟩
    · rw [← hthis hzthis name]
      exact ⟨fun hb => (hb.resolve_right (hnew name)).2, fun hb => .inl ⟨rfl, hb⟩⟩
  · intro g name v hv
    rw [hpush, Frames.own?_push] at hv
    split at hv
    · exact (hvalues name v hv).mono hg
    · exact (h.values g name v hv).mono hg
  · intro owner name v hv
    exact (h.fields owner name v hv).mono hg

end WorldOk

/-! ### Outcomes -/

/-- The invariant holds after a step, with labels for the frames that were created. -/
def Kept (x : Scene) (m : Machine) : Prop :=
  ∃ y : Scene, y.inputs = x.inputs ∧ x.labels <+: y.labels ∧ Invariant y m

lemma Invariant.kept (h : Invariant x m) : Kept x m := ⟨x, rfl, List.prefix_rfl, h⟩

lemma Kept.of_labels {y : Scene} (h : Kept y m) (hi : y.inputs = x.inputs)
    (hl : x.labels <+: y.labels) : Kept x m := by
  obtain ⟨z, hz, hlabels, hinv⟩ := h
  exact ⟨z, hz.trans hi, hl.trans hlabels, hinv⟩

namespace Steady

variable {q : Stage}

lemma give (h : Steady x m) {v : Value} (hv : ValueOk x v) (hs : Synced x m.env S)
    (hw : Waits x q m.env S m.pending) : Invariant x (m.give v) :=
  ⟨⟨h.world, h.head⟩, .value hv hs hw⟩

lemma exit (h : Steady x m) {e : Exit} (he : ExitOk x e) (hw : Waits x q m.env S m.pending) :
    Invariant x { m with control := .exit e } :=
  ⟨⟨h.world, h.head⟩, .exit he hw⟩

lemma fail (h : Steady x m) (f : Failure) (hw : Waits x q m.env S m.pending) :
    Invariant x (m.fail f) :=
  h.exit trivial hw

lemma eval (h : Steady x m) {e : Expr} (he : Placed x m.env S (.expr e)) (hs : Synced x m.env S)
    (hw : Waits x .expression m.env S m.pending) : Invariant x { m with control := .eval e } :=
  ⟨⟨h.world, h.head⟩, .eval he hs hw⟩

lemma await (h : Steady x m) {p : Pending} {e : Expr} (he : Placed x m.env S (.expr e))
    (hs : Synced x m.env S) (hw : Waits x .expression m.env S (p :: m.pending)) :
    Invariant x (m.await p (.eval e)) :=
  ⟨⟨h.world, h.head⟩, .eval he hs hw⟩

/-! ### Variables -/

lemma giveFound (h : Steady x m) {name : Token} {found : Option Value}
    (hv : ∀ v, found = some v → ValueOk x v) (hs : Synced x m.env S)
    (hw : Waits x q m.env S m.pending) : Invariant x (m.giveFound name found) := by
  unfold Machine.giveFound
  split
  · exact h.give (hv _ rfl) hs hw
  · exact h.fail _ hw

lemma valueOk_get? (h : Steady x m) {env : Env} {name : String} {v : Value}
    (hv : m.world.frames.get? env name = some v) : ValueOk x v := by
  obtain ⟨f, -, hf⟩ := Option.bind_eq_some_iff.mp hv
  exact h.world.values f name v hf

lemma valueOk_getAt? (h : Steady x m) {env : Env} {d : ℕ} {name : String} {v : Value}
    (hv : m.world.frames.getAt? env d name = some v) : ValueOk x v := by
  obtain ⟨f, -, hf⟩ := Option.bind_eq_some_iff.mp hv
  exact h.world.values f name v hf

lemma readVariable (h : Steady x m) (s : Setting) (id : NodeId) (name : Token)
    (hs : Synced x m.env S) (hw : Waits x q m.env S m.pending) :
    Invariant x (m.readVariable s id name) := by
  refine h.giveFound (fun v hv => ?_) hs hw
  split at hv
  · exact h.valueOk_getAt? hv
  · exact h.valueOk_get? hv

/-- A value that is written where the name is bound before. -/
lemma writeIn (h : Steady x m) {holder : Option FrameId} {name : Token} {v : Value}
    (hholder : ∀ f, holder = some f → m.world.frames.binds name.lexeme f) (hv : ValueOk x v)
    (hs : Synced x m.env S) (hw : Waits x q m.env S m.pending) :
    Kept x (m.writeIn holder name v) := by
  unfold Machine.writeIn
  split
  · rename_i f
    have hbinds := hholder f rfl
    have hg : ∀ {h'}, x.Grows h' (x.write f name.lexeme v) :=
      Scene.grows_write (.inr (h.world.frames ▸ hbinds))
    refine ⟨x.write f name.lexeme v, rfl, List.prefix_rfl, ⟨h.world.write (.inl hbinds) ?_, h.head⟩,
      .value (q := q) (S := S) ?_ ?_ ?_⟩
    · exact hv.mono hg (h := 0)
    · exact hv.mono hg (h := 0)
    · exact hs.mono hg (Nat.lt_succ_self _)
    · exact hw.mono hg le_rfl
  · exact (h.fail _ hw).kept

lemma writeVariable (h : Steady x m) (s : Setting) {id : NodeId} {name : Token} {v : Value}
    (hv : ValueOk x v) (hs : Synced x m.env S) (hw : Waits x q m.env S m.pending) :
    Kept x (m.writeVariable s id name v) := by
  refine h.writeIn (fun f hf => ?_) hv hs hw
  split at hf
  · exact (Option.filter_eq_some_iff.mp hf).2
  · exact List.find?_some hf

end Steady

/-! ### Declarations -/

lemma Mirrors.exists_head {xs : List Region} (h : Mirrors x.labels env xs) :
    ∃ f rest, env = f :: rest := by
  cases h <;> exact ⟨_, _, rfl⟩

/-- Once a name has got its value, the frames agree with what is known after its declaration. -/
lemma Synced.define {f : FrameId} {rest : Env} {name : String} {v : Value}
    (hs : Synced x (f :: rest) S) (hf : f < x.frames.next) :
    Synced (x.write f name v) (f :: rest) (S.put name true) := by
  have hbinds : ∀ {other g}, (x.write f name v).frames.binds other g ↔
      (f = g ∧ name = other ∧ f < x.frames.next) ∨ x.frames.binds other g :=
    Frames.binds_write
  cases S with
  | nil => exact ⟨nofun, fun _ _ _ _ hl => nomatch hl⟩
  | cons l S =>
    constructor
    · intro d m other hm hother
      -- the name itself is bound now, and every other name where it was
      by_cases hnew : d = 0 ∧ other = name
      · obtain ⟨rfl, rfl⟩ := hnew
        exact ⟨f, rfl, hbinds.mpr (.inl ⟨rfl, rfl, hf⟩)⟩
      · have hold : ∃ m', (l :: S)[d]? = some m' ∧ m' other = some true := by
          cases d with
          | zero =>
            obtain rfl : Function.update l name (some true) = m := Option.some.inj hm
            have hne : other ≠ name := fun h => hnew ⟨rfl, h⟩
            exact ⟨l, rfl, by rwa [Function.update_of_ne hne] at hother⟩
          | succ d => exact ⟨m, hm, hother⟩
        obtain ⟨m', hm', hother'⟩ := hold
        obtain ⟨g, hg, hb⟩ := hs.bound d m' other hm' hother'
        exact ⟨g, hg, hbinds.mpr (.inr hb)⟩
    · intro g m other hg hm hb
      obtain rfl : f = g := Option.some.inj hg
      obtain rfl : Function.update l name (some true) = m := Option.some.inj hm
      by_cases hother : other = name
      · rw [hother, Function.update_self]
      · rw [Function.update_of_ne hother]
        refine hs.only f l other rfl rfl ((hbinds.mp hb).resolve_left fun h => hother h.2.1.symm)

namespace Steady

/-- A declaration gives its name a value in the current frame. -/
lemma define (h : Steady x m) {d : Stmt} {name : Token} {v : Value} {S' : Shape}
    (hp : Placed x m.env S (.stmt d)) (hd : d.declared? = some name)
    (hs : Synced x m.env S') (hS : S'.put name.lexeme true = S.after d)
    (hv : ∀ y, x.Grows 0 y → Synced y m.env (S.after d) → ValueOk y v)
    (hw : Waits x .declaration m.env (S.after d) m.pending) : Kept x (m.define name v) := by
  obtain ⟨xs, ctx, s, -, hm, -⟩ := id hp
  obtain ⟨f, rest, henv⟩ := hm.exists_head
  have hhead : m.env.headD 0 = f := by rw [henv]; rfl
  have hf : f < x.frames.next := by
    rw [← h.world.frames, ← h.world.length, ← hhead]
    exact h.head
  have hg : ∀ {h'}, h' ≤ f → x.Grows h' (x.write f name.lexeme v) :=
    fun hle => Scene.grows_write (.inl hle)
  have hsync : Synced (x.write f name.lexeme v) m.env (S.after d) := by
    rw [← hS]
    rw [henv] at hs ⊢
    exact hs.define hf
  have hvalue := hv _ (hg (Nat.zero_le f)) hsync
  have hworld : (m.define name v).world = m.world.write f name.lexeme v := by
    unfold Machine.define
    rw [henv]
    rfl
  refine ⟨x.write f name.lexeme v, rfl, List.prefix_rfl, ⟨?_, h.head⟩,
    .value (q := .declaration) trivial hsync (hw.mono (hg le_rfl) (le_of_eq hhead))⟩
  rw [hworld]
  refine h.world.write (.inr fun y hy => ?_) hvalue
  rw [henv] at hp
  exact hp.declared hd hy

end Steady

/-! ### Calls -/

lemma contains_parameterFrame {params : List Token} {args : List Value}
    (h : args.length = params.length) {name : String} :
    (parameterFrame params args).contains name ↔ name ∈ params.map (·.lexeme) := by
  have hfst : (params.zip args).map (·.1) = params := List.map_fst_zip h.ge
  unfold parameterFrame
  rw [Table.contains_ofList, List.map_map]
  have hmap : (params.zip args).map ((·.1) ∘ fun p : Token × Value => (p.1.lexeme, p.2)) =
      ((params.zip args).map (·.1)).map (·.lexeme) := by
    rw [List.map_map]; rfl
  rw [hfst] at hmap
  exact iff_of_eq (congrArg (name ∈ ·) hmap)

lemma mem_of_get?_parameterFrame {params : List Token} {args : List Value} {name : String}
    {v : Value} (h : (parameterFrame params args).get? name = some v) : v ∈ args := by
  obtain ⟨p, hp, hpair⟩ := List.mem_map.mp (Table.mem_of_get?_ofList h)
  obtain ⟨-, rfl⟩ := Prod.mk.inj hpair
  exact (List.of_mem_zip hp).2

/-- In a new frame that binds just the names with a value, all names agree. -/
lemma Bound.synced_push {y : Region} {t : Table Value} {l : Standing} (hb : Bound x env S)
    (hl : ∀ name, t.contains name ↔ l name = some true) :
    Synced (x.push y t) (x.frames.next :: env) (l :: S) := by
  have hbinds : ∀ {name g}, (x.push y t).frames.binds name g ↔
      (g = x.frames.next ∧ t.contains name) ∨ x.frames.binds name g := Frames.binds_push
  constructor
  · intro d k name hk hname
    cases d with
    | zero =>
      obtain rfl : l = k := Option.some.inj hk
      exact ⟨_, rfl, hbinds.mpr (.inl ⟨rfl, (hl name).mpr hname⟩)⟩
    | succ d =>
      obtain ⟨f, hf, hf'⟩ := hb d k name hk hname
      exact ⟨f, hf, hbinds.mpr (.inr hf')⟩
  · intro f k name hf hk hname
    obtain rfl : x.frames.next = f := Option.some.inj hf
    obtain rfl : l = k := Option.some.inj hk
    rcases hbinds.mp hname with ⟨-, h⟩ | h
    · exact (hl name).mp h
    · exact absurd (Frames.lt_next_of_binds h) (lt_irrefl _)

namespace Steady

/-- The label of the next frame. -/
lemma label_push (h : Steady x m) (y : Region) (t : Table Value) :
    (x.push y t).labels[m.world.frames.next]? = some (some y) := by
  rw [← h.world.length]
  exact List.getElem?_concat_length

lemma next_eq (h : Steady x m) : x.frames.next = m.world.frames.next := by rw [h.world.frames]

lemma head_lt (h : Steady x m) : m.env.headD 0 < m.world.frames.next := by
  rw [← h.world.length]; exact h.head

/-- All frames so far stay as they are when one is added. -/
lemma grows_push (h : Steady x m) (y : Region) (t : Table Value) :
    x.Grows (m.env.headD 0 + 1) (x.push y t) :=
  Scene.grows_push (h.next_eq ▸ h.head_lt)

/-- A body is run in a new frame; what waits for its end puts the current environment back. -/
lemma run (h : Steady x m) {y : Region} {t : Table Value} {l : Standing} {S' : Shape}
    {body : List Stmt} {p : Pending} {depth : ℕ}
    (hin : PlacedIn x env y (l :: S') (.stmts body)) (hb : Bound x env S')
    (hl : ∀ name, t.contains name ↔ l name = some true) (hy : ¬y.IsThis)
    (ht : ∀ name v, t.get? name = some v → ValueOk x v)
    (hw : Waits (x.push y t) .body (m.world.frames.next :: env) S (p :: m.pending)) :
    Kept x { control := .execAll body
             pending := p :: m.pending
             env := m.world.frames.next :: env
             depth
             world := m.world.addFrame t } := by
  have hworld : WorldOk (x.push y t) (m.world.addFrame t) := by
    refine h.world.addFrame (fun name hname => hin.declares ?_) (fun hthis => absurd hthis hy) ht
    rw [(hl name).mp hname]
    exact nofun
  have hplaced := (hin.mono (h.grows_push y t)).placed (h.label_push y t)
  have hsync := hb.synced_push (y := y) hl
  rw [h.next_eq] at hsync
  refine ⟨x.push y t, rfl, List.prefix_append .., ⟨hworld, ?_⟩, .execAll hplaced hsync hw⟩
  rw [hworld.length]
  exact Nat.lt_of_lt_of_eq (Nat.lt_succ_self _) (Frames.next_push ..).symm

lemma openBlock (h : Steady x m) {body : List Stmt} (hp : Placed x m.env S (.stmt (.block body)))
    (hs : Synced x m.env S) (hw : Waits x .statement m.env S m.pending) :
    Kept x (m.openBlock body) := by
  obtain ⟨y, hy, hin⟩ := hp.block
  have hg := h.grows_push y []
  have hwait : Waits (x.push y []) .body (m.world.frames.next :: m.env) S
      (.leaveBlock m.env :: m.pending) :=
    .leaveBlock h.head_lt (hs.mono hg (Nat.lt_succ_self _)) (hw.mono hg le_rfl)
  refine h.run hin hs.bound (fun name => ?_) hy nofun hwait
  exact ⟨nofun, nofun⟩

/-- A call runs the body of a function in a new frame inside the environment of its closure. -/
lemma enter (h : Steady x m) {c : Closure} {args : List Value} {site : Token} (hc : ClosureOk x c)
    (hargs : ∀ v ∈ args, ValueOk x v) (hlen : args.length = c.arity) (hs : Synced x m.env S)
    (hw : Waits x .expression m.env S m.pending) : Kept x (m.enter c args site) := by
  unfold Machine.enter
  split
  · exact (h.fail _ hw).kept
  obtain ⟨⟨S', body, hp, hb⟩, -⟩ := id hc
  obtain ⟨y, hy, hin⟩ := hp.body
  rw [Shape.afterParams_cons] at hin
  have hg := h.grows_push y (parameterFrame c.decl.paramList args)
  have hwait : Waits (x.push y (parameterFrame c.decl.paramList args)) .body
      (m.world.frames.next :: c.env) S (.leaveCall m.env c :: m.pending) :=
    .leaveCall h.head_lt (hs.mono hg (Nat.lt_succ_self _)) (hc.mono hg) (hw.mono hg le_rfl)
  refine h.run hin hb (fun name => ?_) hy
    (fun name v hv => hargs v (mem_of_get?_parameterFrame hv)) hwait
  rw [contains_parameterFrame hlen]
  split
  · rename_i hmem
    exact ⟨fun _ => rfl, fun _ => hmem⟩
  · rename_i hmem
    exact ⟨fun h => absurd h hmem, nofun⟩

/-- A method is bound to its object in a frame of its own. -/
lemma bind (h : Steady x m) {c : Closure} {v : Value} (hc : MethodOk x c) (hv : ValueOk x v) :
    ∃ y : Region, Steady (x.push y [("this", v)]) (m.bind v) ∧
      ClosureOk (x.push y [("this", v)]) (c.within m.world.frames.next) := by
  obtain ⟨y, S', body, hy, hin, hb⟩ := hc
  have hg := h.grows_push y [("this", v)]
  have ht : ∀ name, Table.contains [("this", v)] name ↔
      Layer.thisStanding name = some true := by
    intro name
    unfold Table.contains Table.get? Layer.thisStanding
    by_cases hname : name = "this" <;> simp [hname, Ne.symm]
  have hsync := hb.synced_push (y := y) ht
  rw [h.next_eq] at hsync
  have hthis : ∀ name, Table.contains [("this", v)] name ↔ name = "this" := by
    intro name
    rw [ht]
    unfold Layer.thisStanding
    split <;> simp_all
  have hworld : WorldOk (x.push y [("this", v)]) (m.world.addFrame [("this", v)]) := by
    refine h.world.addFrame (fun name hname => hin.declares ?_) (fun _ => hthis) ?_
    · rw [(ht name).mp hname]
      exact Option.some_ne_none _
    · intro name w hw
      unfold Table.get? at hw
      split at hw
      · exact Option.some.inj hw ▸ hv
      · cases hw
  -- the current environment stays, and the closure gets the new frame
  refine ⟨y, ⟨hworld, ?_⟩, ⟨_, body, (hin.mono hg).placed (h.label_push y _), hsync.bound⟩, ?_⟩
  · exact lt_of_lt_of_le h.head (List.prefix_append ..).length_le
  · exact fun _ => ⟨_, rfl, Frames.binds_push.mpr (.inl ⟨h.next_eq.symm, (hthis _).mpr rfl⟩)⟩

lemma construct (h : Steady x m) {c : ClassInfo} {args : List Value} {site : Token}
    (hc : ClassOk x c) (hargs : ∀ v ∈ args, ValueOk x v) (hlen : args.length = c.arity)
    (hs : Synced x m.env S) (hw : Waits x .expression m.env S m.pending) :
    Kept x (m.construct c args site) := by
  have h' : Steady x (m.change (·.addOwner)) := ⟨h.world.addOwner, h.head⟩
  have hobject : ValueOk x (.object m.world.nextOwner c) := hc
  unfold Machine.construct
  dsimp only
  split
  · exact (h'.give hobject hs hw).kept
  · rename_i f hf
    obtain ⟨y, hsteady, hclosure⟩ := h'.bind (hc.methods _ f hf) hobject
    have hg := h'.grows_push y [("this", .object m.world.nextOwner c)]
    have harity : args.length = f.arity := by
      rw [hlen, ClassInfo.arity, hf]
    -- the object waits below the call of its initializer
    have hwait : Waits (x.push y [("this", .object m.world.nextOwner c)]) .expression m.env S
        (.construct (.object m.world.nextOwner c) :: m.pending) :=
      .operand (hobject.mono hg) (hw.mono hg le_rfl)
    have hsteady' : Steady _ { (m.change (·.addOwner)).bind (.object m.world.nextOwner c) with
        pending := .construct (.object m.world.nextOwner c) :: m.pending } :=
      ⟨hsteady.world, hsteady.head⟩
    refine Kept.of_labels (y := x.push y [("this", .object m.world.nextOwner c)]) ?_ rfl
      (List.prefix_append ..)
    exact hsteady'.enter hclosure (fun v hv => (hargs v hv).mono hg) harity
      (hs.mono hg (Nat.lt_succ_self _)) hwait

end Steady

end Machine

end Lox
