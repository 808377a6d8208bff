import Lox.Proofs.Machine.Initializers
import Lox.Proofs.Grammar.Numbers
import Lox.Proofs.Session.Catching

/-!
Every node has a number of its own, and what is recorded for it stays.

The numbers go on from one text to the next. A tree that is refused, before or after its survey, has
used up its numbers like any other, and so has an attempt to read an expression that was given up.
So no two nodes of a session share a number, no survey overwrites what is recorded, and a function
keeps the distances with which it was surveyed, whatever is read after it was declared.
-/

namespace Lox

namespace Scope

variable {inputs : List Grammar.Input} {n m : Node} {ctx ctx' : Context} {s s' : Survey}
  {xs : List Region}

/-! ### Numbers of nodes inside -/

lemma Inside.ids_subset (h : Inside n ctx s xs m ctx' s') : m.ids ⊆ n.ids := by
  cases h with
  | @parts e => exact fun i hi => e.ids_perm_parts.subset (List.mem_append_left _ hi)
  | firstExpr => exact List.subset_append_left ..
  | laterExprs => exact List.subset_append_right ..
  | @heads d _ _ hd =>
    cases d with
    | branch c t e => cases e <;> simp [Node.ids, Stmt.heads, Stmt.ids, Expr.idsOf]
    | loop c body => simp [Node.ids, Stmt.heads, Stmt.ids, Expr.idsOf]
    | expression e => simp [Node.ids, Stmt.heads, Stmt.ids, Expr.idsOf]
    | print e => simp [Node.ids, Stmt.heads, Stmt.ids, Expr.idsOf]
    | _ => exact absurd rfl hd
  | @branches d _ _ hd =>
    cases d with
    | branch c t e => cases e <;> simp [Node.ids, Stmt.branches, Stmt.ids, Stmt.idsOf]
    | loop c body => simp [Node.ids, Stmt.branches, Stmt.ids, Stmt.idsOf]
    | _ => exact absurd rfl hd
  | returned => exact List.Subset.refl _
  | initial => exact List.Subset.refl _
  | block => exact List.Subset.refl _
  | function => exact List.Subset.refl _
  | methods => exact List.subset_append_left ..
  | statics => exact List.subset_append_right ..
  | firstStmt => exact List.subset_append_left ..
  | laterStmts => exact List.subset_append_right ..
  | @body d => cases d; exact List.Subset.refl _
  | firstMethod => exact List.subset_append_left ..
  | laterMethods => exact List.subset_append_right ..
  | firstStatic => exact List.subset_append_left ..
  | laterStatics => exact List.subset_append_right ..

lemma Visited.ids_subset (h : Visited inputs xs n ctx s) :
    ∃ input ∈ inputs, n.ids ⊆ (rootOf input).ids := by
  induction h with
  | root h => exact ⟨_, h, List.Subset.refl _⟩
  | inside _ hin ih =>
    obtain ⟨input, hinput, hids⟩ := ih
    exact ⟨input, hinput, List.Subset.trans hin.ids_subset hids⟩

end Scope

namespace Machine

open Scope

/-- A machine has a closure: it holds the function, or a class or an object with the method, or the
function is being called. -/
inductive Has (m : Machine) (c : Closure) : Prop
  | function {id} : m.Holds (.function id c) → Has m c
  | ofClass {id k name} : m.Holds (.classValue id k) →
      k.methods.get? name = some c ∨ k.statics.get? name = some c → Has m c
  | ofObject {id k name} : m.Holds (.object id k) →
      k.methods.get? name = some c ∨ k.statics.get? name = some c → Has m c
  | called : c ∈ m.activations → Has m c

variable {x : Scene} {m : Machine} {c : Closure} {q : Stage} {env : Env} {S : Shape}
  {ps : List Pending} {p : Pending} {v : Value} {k : ClassInfo} {name : String}

/-! ### Closures that a machine has -/

lemma Waits.valueOk (h : Waits x q env S ps) (hp : p ∈ ps) (hv : v ∈ p.values) : ValueOk x v := by
  induction h with
  | value => cases hp
  | finish => cases hp
  | @operand _ _ p' _ hp' _ ih =>
    rcases List.mem_cons.mp hp with rfl | hp
    · cases p with
      | binaryRight left op => exact List.mem_singleton.mp hv ▸ hp'
      | argument callee paren found rest =>
        obtain ⟨hcallee, hfound, -⟩ := hp'
        exact List.forall_mem_cons.mpr ⟨hcallee, hfound⟩ v hv
      | construct object => exact List.mem_singleton.mp hv ▸ hp'
      | _ => cases hv
    · exact ih hp
  | @head _ _ p' _ hp' _ ih =>
    rcases List.mem_cons.mp hp with rfl | hp
    · cases p with
      | binaryRight => exact hp'.elim
      | argument => exact hp'.elim
      | construct => exact hp'.elim
      | _ => cases hv
    · exact ih hp
  | ofDeclaration _ ih => exact ih hp
  | initial _ _ ih =>
    rcases List.mem_cons.mp hp with rfl | hp
    · cases hv
    · exact ih hp
  | loopBody _ _ _ ih =>
    rcases List.mem_cons.mp hp with rfl | hp
    · cases hv
    · exact ih hp
  | sequence _ _ ih =>
    rcases List.mem_cons.mp hp with rfl | hp
    · cases hv
    · exact ih hp
  | leaveBlock _ _ _ ih =>
    rcases List.mem_cons.mp hp with rfl | hp
    · cases hv
    · exact ih hp
  | leaveCall _ _ _ _ ih =>
    rcases List.mem_cons.mp hp with rfl | hp
    · cases hv
    · exact ih hp

/-- What waits in a machine fits some stage. -/
lemma Invariant.exists_waits (h : Invariant x m) : ∃ q S, Waits x q m.env S m.pending := by
  obtain ⟨control, pending, env, depth, w⟩ := m
  cases h.runs with
  | eval _ _ hw => exact ⟨_, _, hw⟩
  | exec _ _ hw => exact ⟨_, _, hw⟩
  | execAll _ _ hw => exact ⟨_, _, hw⟩
  | value _ _ hw => exact ⟨_, _, hw⟩
  | exit _ hw => exact ⟨_, _, hw⟩

lemma Invariant.valueOk_of_holds (h : Invariant x m) (hv : m.Holds v) : ValueOk x v := by
  cases hv with
  | inHand hc =>
    have hruns := h.runs
    rw [hc] at hruns
    cases hruns with
    | value hv => exact hv
  | leaving hc =>
    have hruns := h.runs
    rw [hc] at hruns
    cases hruns with
    | exit he => exact he
  | waiting hp hv =>
    obtain ⟨q, S, hw⟩ := h.exists_waits
    exact hw.valueOk hp hv
  | bound hv => exact h.world.values _ _ _ hv
  | field hv => exact h.world.fields _ _ _ hv

lemma ClosureOk.surveyed (h : ClosureOk x c) : ∃ body, Surveyed x.inputs body c.decl := by
  obtain ⟨S, body, ⟨xs, ctx, s, hv, -, -⟩, -⟩ := h.placed
  exact ⟨body, xs, ctx, s, hv⟩

lemma MethodOk.surveyed (h : MethodOk x c) : ∃ body, Surveyed x.inputs body c.decl := by
  obtain ⟨y, S, body, -, ⟨xs, ctx, s, hv, -, -⟩, -⟩ := h
  exact ⟨body, y :: xs, ctx, s, hv⟩

lemma ClassOk.surveyed (h : ClassOk x k)
    (hc : k.methods.get? name = some c ∨ k.statics.get? name = some c) :
    ∃ body, Surveyed x.inputs body c.decl := by
  rcases hc with hc | hc
  · exact (h.methods name c hc).surveyed
  · exact (h.statics name c hc).surveyed

/-- The survey of an accepted input came to the declaration of every closure there is. -/
lemma Invariant.surveyed (h : Invariant x m) (hc : m.Has c) :
    ∃ body, Surveyed x.inputs body c.decl := by
  cases hc with
  | function hv => exact ClosureOk.surveyed (h.valueOk_of_holds hv)
  | ofClass hv hc => exact ClassOk.surveyed (h.valueOk_of_holds hv) hc
  | ofObject hv hc => exact ClassOk.surveyed (h.valueOk_of_holds hv) hc
  | called hc =>
    obtain ⟨p, hp, hcallee⟩ := List.mem_filterMap.mp hc
    obtain ⟨q, S, hw⟩ := h.exists_waits
    cases p with
    | leaveCall env d =>
      cases hcallee
      exact (hw.closureOk hp).surveyed
    | _ => cases hcallee

end Machine

namespace Session

open Scope Machine

/-! ### Trees that were read -/

/-- A tree that was read from a text, and whether it was surveyed. One whose text has lexical
complaints was not. -/
structure Reading where
  tree : Grammar.Input
  surveyed : Bool

/-- The expression with which a text begins, where it might have been all of the text and is given
up: there is more to read, or there are complaints. -/
def givenUp? (mode : Grammar.Mode) (tokens : List Token) (firstId : NodeId) : Option Expr :=
  match mode, Grammar.expression (Grammar.allowance tokens) (.start tokens firstId) with
  | .program, _ => none
  | _, .done e c => if c.rest.isEmpty && c.complaints.isEmpty then none else some e
  | _, _ => none

/-- The trees that a session reads from a text, the latest first. -/
def readings (s : Session) (mode : Grammar.Mode) (source : String) : List Reading :=
  ((Grammar.inputOf mode (Source.tokens source) s.nextId).result.toOption.toList.map
    (⟨·, (Grammar.lexicalComplaints source).isEmpty⟩)) ++
  (givenUp? mode (Source.tokens source) s.nextId).toList.map (⟨.expression ·, false⟩)

/-- The moments of a session so far, and all trees that were read, whatever became of them, the
latest first. -/
inductive History (services : List Service) (sink : Sink) : List Session → List Reading → Prop
  | start : History services sink [.start services sink] []
  | step {s past rs} : History services sink (s :: past) rs →
      History services sink (s.step :: s :: past) rs
  | text {s s' past rs mode source answer} :
      History services sink (s :: past) rs → s.machine.isHalted →
      s.accept mode source = (s', answer) →
      History services sink (s' :: s :: past) (s.readings mode source ++ rs)

/-- The numbers in trees. -/
def numbers (rs : List Reading) : List NodeId := rs.flatMap (rootOf ·.tree |>.ids)

/-- The references that the surveys noted. -/
def noted (rs : List Reading) : List Lookup :=
  (rs.filter (·.surveyed)).flatMap (ofInput ·.tree |>.lookups)

variable {services : List Service} {sink : Sink} {s s' t : Session} {past : List Session}
  {rs rs' : List Reading} {mode : Grammar.Mode} {source : String} {tokens : List Token}
  {firstId : NodeId} {c : Closure}

lemma numbers_append : numbers (rs ++ rs') = numbers rs ++ numbers rs' := List.flatMap_append

lemma noted_append : noted (rs ++ rs') = noted rs ++ noted rs' := by
  unfold noted
  rw [List.filter_append, List.flatMap_append]

/-- A survey notes nodes of its tree, each at most once. -/
lemma noted_subperm (rs : List Reading) :
    List.Subperm ((noted rs).map (·.id)) (numbers rs) := by
  induction rs with
  | nil => exact List.Subperm.refl _
  | cons r rs ih =>
    rw [← List.singleton_append, noted_append, numbers_append, List.map_append]
    refine List.Subperm.append ?_ ih
    obtain ⟨tree, surveyed⟩ := r
    cases surveyed with
    | true =>
      simpa only [noted, numbers, List.filter_cons_of_pos, List.filter_nil, List.flatMap_cons,
        List.flatMap_nil, List.append_nil] using lookups_ids tree
    | false => exact List.nil_subperm

lemma id_mem_numbers {l : Lookup} (h : l ∈ noted rs) : l.id ∈ numbers rs :=
  (noted_subperm rs).subset (List.mem_map_of_mem h)

/-! ### One text -/

lemma fresh_program (hw : ∀ t ∈ Grammar.beforeEnd tokens, t.Worded) :
    Fresh firstId (Grammar.program tokens firstId).nextId
      ((Grammar.program tokens firstId).result.toOption.elim [] Stmt.idsOf) := by
  cases h : (Grammar.program tokens firstId).result with
  | ok body => exact (readInput_program hw h).fresh
  | error cs => exact .nil (Grammar.nextId_program_le ..)

/-- The trees that are read from tokens, kept or given up, have new numbers. -/
lemma fresh_inputOf (hw : ∀ t ∈ Grammar.beforeEnd tokens, t.Worded) :
    Fresh firstId (Grammar.inputOf mode tokens firstId).nextId
      ((givenUp? mode tokens firstId).elim [] Expr.ids ++
        (Grammar.inputOf mode tokens firstId).result.toOption.elim [] (rootOf · |>.ids)) := by
  have statements : ∀ {xs id}, Fresh firstId id xs →
      Fresh firstId (Grammar.program tokens id).nextId
        (xs ++ ((Grammar.program tokens id).result.map Grammar.Input.statements).toOption.elim []
          (rootOf · |>.ids)) := by
    intro xs id h
    have := h.append (fresh_program hw)
    cases hresult : (Grammar.program tokens id).result <;> rwa [hresult] at this
  have hends := Grammar.expression_endsAt tokens firstId
  unfold Grammar.Rule.EndsAt at hends
  cases hr : Grammar.expression (Grammar.allowance tokens) (.start tokens firstId) with
  | exhausted => exact absurd hr (Grammar.expression_not_exhausted tokens firstId)
  | failed e c =>
    rw [hr] at hends
    have hnil : Fresh firstId c.nextId [] := .nil hends.2
    cases mode with
    | program => exact statements (.nil le_rfl)
    | expression =>
      simpa [givenUp?, hr, Grammar.inputOf, Grammar.singleExpression, Grammar.Cursor.stopped,
        Grammar.Parsed.map, Except.map, Except.toOption] using hnil
    | line => simpa [givenUp?, hr, Grammar.inputOf, Grammar.line] using statements hnil
  | done e c =>
    have he : Fresh firstId c.nextId e.ids := Grammar.fresh_of_expression hr
    cases mode with
    | program => exact statements (.nil le_rfl)
    | expression =>
      by_cases hrest : c.rest.isEmpty <;> by_cases hc : c.complaints.isEmpty <;>
        simpa [givenUp?, hr, Grammar.inputOf, Grammar.singleExpression, hrest, hc,
          Grammar.Cursor.stopped, Grammar.Cursor.finish, Grammar.Parsed.map, Except.map,
          Except.toOption, rootOf, Node.ids] using he
    | line =>
      by_cases hrest : c.rest.isEmpty
      · by_cases hc : c.complaints.isEmpty <;>
          simpa [givenUp?, hr, Grammar.inputOf, Grammar.line, hrest, hc, Grammar.Cursor.finish,
            Except.toOption, rootOf, Node.ids] using he
      · simpa [givenUp?, hr, Grammar.inputOf, Grammar.line, hrest] using statements he

/-- Reading a text takes new numbers for its trees, and records what is noted of them. -/
structure Takes (s s' : Session) (rs : List Reading) : Prop where
  fresh : Fresh s.nextId s'.nextId (numbers rs)
  distances : s'.distances = s.distances.addAll (noted rs)

/-- The distances that a survey finds are recorded, whatever is wrong with the tree. -/
lemma distances_acceptTree (s : Session) (input : Grammar.Input) :
    (s.acceptTree input).1.distances = s.distances.addAll (ofInput input).lookups ∧
      (s.acceptTree input).1.nextId = s.nextId := by
  unfold acceptTree
  dsimp only
  split <;> exact ⟨rfl, rfl⟩

lemma nextId_accept (s : Session) (mode : Grammar.Mode) (source : String) :
    (s.accept mode source).1.nextId =
      (Grammar.inputOf mode (Source.tokens source) s.nextId).nextId := by
  rw [← nextId_readBy]
  unfold accept
  dsimp only
  split
  · rfl
  · exact (distances_acceptTree ..).2

lemma noted_readings (s : Session) (mode : Grammar.Mode) (source : String) :
    noted (s.readings mode source) =
      (Grammar.read mode source s.nextId).result.toOption.elim [] (ofInput · |>.lookups) := by
  unfold readings Grammar.read Grammar.readBy
  rw [noted_append]
  have hnone : noted ((givenUp? mode (Source.tokens source) s.nextId).toList.map
      (⟨.expression ·, false⟩)) = [] := by
    cases givenUp? mode (Source.tokens source) s.nextId <;> rfl
  rw [hnone, List.append_nil]
  cases hresult : (Grammar.inputOf mode (Source.tokens source) s.nextId).result with
  | error cs => simp [Except.toOption, noted, hresult]
  | ok input =>
    by_cases hl : (Grammar.lexicalComplaints source).isEmpty <;>
      simp [Except.toOption, noted, hl, hresult]

lemma accept_takes (s : Session) (mode : Grammar.Mode) (source : String) :
    s.Takes (s.accept mode source).1 (s.readings mode source) where
  fresh := by
    rw [nextId_accept]
    refine (fresh_inputOf worded_beforeEnd).perm (List.perm_append_comm.trans ?_)
    unfold readings numbers
    rw [List.flatMap_append]
    refine List.Perm.append ?_ ?_
    · cases (Grammar.inputOf mode (Source.tokens source) s.nextId).result <;>
        simp [Except.toOption]
    · cases givenUp? mode (Source.tokens source) s.nextId <;> simp [rootOf, Node.ids]
  distances := by
    rw [noted_readings]
    unfold accept
    dsimp only
    split
    · rename_i cs hresult
      rw [hresult]
      rfl
    · rename_i input hresult
      rw [hresult]
      exact (distances_acceptTree ..).1

/-! ### Along a history -/

/-- All numbers in trees are different, and below the next one. What was noted is recorded, and
nothing else. -/
structure Accounts (s : Session) (rs : List Reading) : Prop where
  fresh : Fresh 0 s.nextId (numbers rs)
  recorded : ∀ l ∈ noted rs, s.distances[l.id]? = l.depth
  unrecorded : ∀ id, (∀ l ∈ noted rs, l.id ≠ id) → s.distances[id]? = none

namespace Accounts

lemma start : Accounts (.start services sink) [] where
  fresh := .nil le_rfl
  recorded := nofun
  unrecorded _ _ := Std.TreeMap.getElem?_emptyc

/-- Numbers from the next one on have no distances. -/
lemma unused (h : Accounts s rs) {id : NodeId} (hid : s.nextId ≤ id) :
    s.distances[id]? = none := by
  refine h.unrecorded id fun l hl heq => ?_
  exact absurd (h.fresh.bounds _ (id_mem_numbers hl)).2 (not_lt.mpr (heq ▸ hid))

end Accounts

lemma Takes.nodup_noted (h : s.Takes s' rs) : ((noted rs).map (·.id)).Nodup :=
  nodup_of_subperm (noted_subperm rs) h.fresh.nodup

/-- What was recorded for earlier nodes stays. -/
lemma Takes.getElem?_below (h : s.Takes s' rs) {id : NodeId} (hid : id < s.nextId) :
    s'.distances[id]? = s.distances[id]? := by
  rw [h.distances]
  refine getElem?_addAll_of_notMem fun hmem => ?_
  exact absurd (h.fresh.bounds _ ((noted_subperm rs).subset hmem)).1 (not_le.mpr hid)

lemma Accounts.take (h : Accounts s rs) (h' : s.Takes s' rs') : Accounts s' (rs' ++ rs) where
  fresh := by
    rw [numbers_append]
    exact (h.fresh.append h'.fresh).perm List.perm_append_comm
  recorded := by
    intro l hl
    rw [noted_append] at hl
    rcases List.mem_append.mp hl with hl | hl
    · rw [h'.distances]
      exact getElem?_addAll hl h'.nodup_noted (h.unused (h'.fresh.bounds _ (id_mem_numbers hl)).1)
    · rw [h'.getElem?_below (h.fresh.bounds _ (id_mem_numbers hl)).2]
      exact h.recorded l hl
  unrecorded := by
    intro id hid
    rw [noted_append] at hid
    have hnew : id ∉ (noted rs').map (·.id) := by
      intro hmem
      obtain ⟨l, hl, heq⟩ := List.mem_map.mp hmem
      exact hid l (List.mem_append_left _ hl) heq
    rw [h'.distances, getElem?_addAll_of_notMem hnew]
    exact h.unrecorded id fun l hl => hid l (List.mem_append_right _ hl)

/-- The second session comes later: it keeps what was recorded for nodes of the first. -/
structure Keeps (s s' : Session) : Prop where
  nextId : s.nextId ≤ s'.nextId
  distances : ∀ id < s.nextId, s'.distances[id]? = s.distances[id]?

lemma Keeps.refl (s : Session) : s.Keeps s := ⟨le_rfl, fun _ _ => rfl⟩

lemma Keeps.trans {s'' : Session} (h : s.Keeps s') (h' : s'.Keeps s'') : s.Keeps s'' where
  nextId := h.nextId.trans h'.nextId
  distances id hid :=
    (h'.distances id (lt_of_lt_of_le hid h.nextId)).trans (h.distances id hid)

lemma Takes.keeps (h : s.Takes s' rs) : s.Keeps s' := ⟨h.fresh.le, fun _ => h.getElem?_below⟩

namespace History

variable {ss : List Session}

lemma exists_accounts (h : History services sink ss rs) :
    ∃ s past, ss = s :: past ∧ Accounts s rs := by
  induction h with
  | start => exact ⟨_, _, rfl, .start⟩
  | step _ ih =>
    obtain ⟨s, past, hs, haccounts⟩ := ih
    cases hs
    exact ⟨_, _, rfl, haccounts.fresh, haccounts.recorded, haccounts.unrecorded⟩
  | @text s s' past rs mode source answer _ _ ha ih =>
    obtain ⟨_, _, hs, haccounts⟩ := ih
    cases hs
    have htakes := accept_takes s mode source
    rw [ha] at htakes
    exact ⟨_, _, rfl, haccounts.take htakes⟩

lemma accounts (h : History services sink (s :: past) rs) : Accounts s rs := by
  obtain ⟨s', past', hs, haccounts⟩ := h.exists_accounts
  cases hs
  exact haccounts

/-- Each earlier moment had a history of its own, and what it recorded is kept. -/
lemma earlier (h : History services sink ss rs) (ht : t ∈ ss) : ∃ before rs₀,
    History services sink (t :: before) rs₀ ∧ rs₀ ⊆ rs ∧ ∀ s ∈ ss.head?, t.Keeps s := by
  induction h with
  | start =>
    obtain rfl := List.mem_singleton.mp ht
    refine ⟨_, _, .start, List.Subset.refl _, ?_⟩
    rintro s ⟨⟩
    exact .refl _
  | @step s past rs h ih =>
    rcases List.mem_cons.mp ht with rfl | ht
    · refine ⟨_, _, .step h, List.Subset.refl _, ?_⟩
      rintro s ⟨⟩
      exact .refl _
    · obtain ⟨before, rs₀, hbefore, hrs, hkeeps⟩ := ih ht
      refine ⟨before, rs₀, hbefore, hrs, ?_⟩
      rintro _ ⟨⟩
      exact ⟨(hkeeps s rfl).nextId, (hkeeps s rfl).distances⟩
  | @text s s' past rs mode source answer h hs ha ih =>
    rcases List.mem_cons.mp ht with rfl | ht
    · refine ⟨_, _, .text h hs ha, List.Subset.refl _, ?_⟩
      rintro s ⟨⟩
      exact .refl _
    · obtain ⟨before, rs₀, hbefore, hrs, hkeeps⟩ := ih ht
      refine ⟨before, rs₀, hbefore, List.subset_append_of_subset_right _ hrs, ?_⟩
      rintro s'' ⟨⟩
      have htakes := accept_takes s mode source
      rw [ha] at htakes
      exact (hkeeps s rfl).trans htakes.keeps

/-- An input that is accepted is among the trees that were read and surveyed. -/
lemma mem_readings {input : Grammar.Input} (h : s.accept mode source = (s', .ok input)) :
    ⟨input, true⟩ ∈ s.readings mode source := by
  have hread := congrArg Grammar.Parsed.result (read_of_accept h)
  have hresult := inputOf_of_read hread
  have hl : (Grammar.lexicalComplaints source).isEmpty := by
    unfold Grammar.read Grammar.readBy at hread
    dsimp only at hread
    rw [hresult] at hread
    by_contra hl
    rw [if_neg hl] at hread
    cases hread
  refine List.mem_append_left _ ?_
  rw [hresult, hl]
  exact List.mem_singleton_self _

lemma exists_course (h : History services sink ss rs) :
    ∃ inputs, Course services sink ss inputs ∧ ∀ input ∈ inputs, ⟨input, true⟩ ∈ rs := by
  induction h with
  | start => exact ⟨[], .start, fun _ h => absurd h List.not_mem_nil⟩
  | step _ ih =>
    obtain ⟨inputs, hcourse, hinputs⟩ := ih
    exact ⟨inputs, hcourse.step, hinputs⟩
  | @text s s' past rs mode source answer _ hs ha ih =>
    obtain ⟨inputs, hcourse, hinputs⟩ := ih
    have hrs : ∀ input ∈ inputs, ⟨input, true⟩ ∈ s.readings mode source ++ rs :=
      fun input hinput => List.mem_append_right _ (hinputs input hinput)
    cases answer with
    | error cs => exact ⟨inputs, hcourse.refused hs ha, hrs⟩
    | ok input =>
      refine ⟨input :: inputs, hcourse.accepted hs ha, List.forall_mem_cons.mpr ⟨?_, hrs⟩⟩
      exact List.mem_append_left _ (mem_readings ha)

/-- A session that takes a text, for however many steps, goes on with its history. -/
lemma submit (h : History services sink (s :: past) rs) (hs : s.machine.isHalted) (n : ℕ)
    (mode : Grammar.Mode) (source : String) : ∃ more,
      History services sink ((s.submit n mode source).1 :: (more ++ s :: past))
        (s.readings mode source ++ rs) := by
  unfold Session.submit
  obtain ⟨s', answer, haccept⟩ : ∃ s' answer, s.accept mode source = (s', answer) := ⟨_, _, rfl⟩
  have htext := h.text hs haccept
  rw [haccept]
  cases answer with
  | error cs => exact ⟨[], htext⟩
  | ok input =>
    dsimp only [conclude]
    induction n with
    | zero => exact ⟨[], htext⟩
    | succ n ih =>
      obtain ⟨more, hmore⟩ := ih
      rw [resume_succ]
      exact ⟨_ :: more, hmore.step⟩

/-- The declaration of a closure that there is at the last moment is in a tree that was surveyed. -/
lemma exists_reading (h : History services sink (s :: past) rs)
    (hhost : (Service.host services).AddsNoCode) (hc : s.machine.Has c) :
    ∃ r ∈ rs, r.surveyed ∧ Stmt.idsOfDecl c.decl ⊆ (rootOf r.tree).ids := by
  obtain ⟨inputs, hcourse, hinputs⟩ := h.exists_course
  obtain ⟨x, s', before, hs, hfits, -⟩ := hcourse.fits hhost
  cases hs
  obtain ⟨body, xs, ctx, survey, hv⟩ := hfits.invariant.surveyed hc
  obtain ⟨input, hinput, hids⟩ := hv.ids_subset
  exact ⟨⟨input, true⟩, hinputs _ (hfits.inputs ▸ hinput), rfl, hids⟩

end History

/-- Whether the value is a declared function. -/
def isFunction : Value → Bool
  | .function .. => true
  | _ => false

/-- All nodes that refer to variables, in all trees that were ever read, have different numbers.
What is recorded is what the surveys noted, and no survey writes where something is recorded
already. A closure keeps the distances with which its declaration was surveyed, from the moment that
there is one. -/
theorem numbers_unique_and_distances_kept (hhost : (Service.host services).AddsNoCode)
    (h : History services sink (s :: past) rs) :
    (numbers rs).Nodup ∧
    (∀ id d, s.distances[id]? = some d ↔ ∃ l ∈ noted rs, l.id = id ∧ l.depth = some d) ∧
    (∀ mode source before l after, noted (s.readings mode source) = before ++ l :: after →
      (s.distances.addAll before)[l.id]? = none) ∧
    ∀ t ∈ s :: past, ∀ c, t.machine.Has c → ∃ r ∈ rs, r.surveyed ∧
      Stmt.idsOfDecl c.decl ⊆ (rootOf r.tree).ids ∧
      (∀ l ∈ (ofInput r.tree).lookups, s.distances[l.id]? = l.depth) ∧
      ∀ id ∈ Stmt.idsOfDecl c.decl, s.distances[id]? = t.distances[id]? := by
  have haccounts := h.accounts
  refine ⟨haccounts.fresh.nodup, fun id d => ⟨fun hd => ?_, ?_⟩, ?_, ?_⟩
  · by_contra hnone
    have hid : ∀ l ∈ noted rs, l.id ≠ id := by
      rintro l hl rfl
      exact hnone ⟨l, hl, rfl, (haccounts.recorded l hl).symm.trans hd⟩
    rw [haccounts.unrecorded id hid] at hd
    cases hd
  · rintro ⟨l, hl, rfl, hd⟩
    exact (haccounts.recorded l hl).trans hd
  · intro mode source before l after hsplit
    have htakes := accept_takes s mode source
    have hl : l ∈ noted (s.readings mode source) := by
      rw [hsplit]
      exact List.mem_append_right _ (List.mem_cons_self ..)
    have hnodup := htakes.nodup_noted
    rw [hsplit, List.map_append, List.map_cons] at hnodup
    have hbefore : l.id ∉ before.map (·.id) := fun hmem =>
      (List.nodup_append.mp hnodup).2.2 _ hmem _ (List.mem_cons_self ..) rfl
    rw [getElem?_addAll_of_notMem hbefore]
    exact haccounts.unused (htakes.fresh.bounds _ (id_mem_numbers hl)).1
  · intro t ht c hc
    obtain ⟨before, rs₀, hbefore, hrs, hkeeps⟩ := h.earlier ht
    obtain ⟨r, hr, hsurveyed, hids⟩ := hbefore.exists_reading hhost hc
    refine ⟨r, hrs hr, hsurveyed, hids, fun l hl => ?_, fun id hid => ?_⟩
    · refine haccounts.recorded l (List.mem_flatMap.mpr ⟨r, ?_, hl⟩)
      exact List.mem_filter.mpr ⟨hrs hr, hsurveyed⟩
    · refine (hkeeps s rfl).distances id ?_
      exact (hbefore.accounts.fresh.bounds _ (List.mem_flatMap.mpr ⟨r, hr, hids hid⟩)).2

/-- A function is declared, and a line follows whose first expression is given up. -/
theorem numbers_unique_and_distances_kept_of_recursion :
    let s := ((start [.clock 0] .unlimited).run 20 "fun f() \x7b var a = f; return a; \x7d").1
    let s' := (s.submit 20 .line "f; f();").1
    ∃ past rs, History [.clock 0] .unlimited (s' :: past) rs ∧ numbers rs = [3, 4, 2, 0, 1] ∧
      (numbers rs).Nodup ∧ ∃ c, s.machine.Has c ∧ ∃ r ∈ rs, r.surveyed ∧
        Stmt.idsOfDecl c.decl ⊆ (rootOf r.tree).ids ∧
        (∀ l ∈ (ofInput r.tree).lookups, s'.distances[l.id]? = l.depth) ∧
        ∀ id ∈ Stmt.idsOfDecl c.decl, s'.distances[id]? = s.distances[id]? := by
  intro s s'
  have hhalted : s.machine.isHalted := by decide +kernel
  obtain ⟨more, hfirst⟩ := (History.start : History [.clock 0] .unlimited _ _).submit rfl 20
    .program "fun f() \x7b var a = f; return a; \x7d"
  obtain ⟨more', hlast⟩ := hfirst.submit hhalted 20 .line "f; f();"
  obtain ⟨id, c, hf⟩ : ∃ id c, s.machine.world.frames.own? 0 "f" = some (.function id c) := by
    have hfunction : (s.machine.world.frames.own? 0 "f").any isFunction = true := by decide +kernel
    obtain ⟨v, hv, h⟩ := (Option.any_eq_true _ _).mp hfunction
    cases v with
    | function id c => exact ⟨id, c, hv⟩
    | _ => cases h
  have hnumbers : numbers (s.readings .line "f; f();" ++
      ((start [.clock 0] .unlimited).readings .program
        "fun f() \x7b var a = f; return a; \x7d" ++ [])) = [3, 4, 2, 0, 1] := by decide +kernel
  obtain ⟨hnodup, -, -, hkept⟩ :=
    numbers_unique_and_distances_kept (addsNoCode_clock 0) hlast
  have hs : s ∈ s' :: (more' ++ s :: (more ++ [start [.clock 0] .unlimited])) :=
    List.mem_cons_of_mem _ (List.mem_append_right _ (List.mem_cons_self ..))
  exact ⟨_, _, hlast, hnumbers, hnodup, c, .function (.bound hf),
    hkept s hs c (.function (.bound hf))⟩

end Session
end Lox
