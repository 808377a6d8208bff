import Mathlib
import Lox.Proofs.Grammar.Relabeling
import Lox.Proofs.Machine.Binding
import Lox.Proofs.Machine.Evaluation
import Lox.Proofs.Scope.Relabeling
import Lox.Proofs.Session.Depth
import Lox.Proofs.Session.Restoration

/-!
Calls nested as deep as the limit allows.

A function can count its calls by a string that grows with each of them, and stop as the string has
the length of the limit. Then as many calls are in progress as there may be, and all of them return.
Since nothing is left of the calls of earlier inputs, this is so wherever a session rests.
-/

namespace Lox.Session

open Machine Grammar

/-- Makes a string `t` of the length of the limit. Then `f` calls itself until `s` is as long. -/
def nestingSource : String :=
  "var t = \"a\"; t = t + t; t = t + t; t = t + t; t = t + t; t = t + t; t = t + t; t = t + t; " ++
    "t = t + t; t = t + t; t = t + t; t = t + t; t = t + t; t = t + t; t = t + t; " ++
    "var s = \"\"; fun f() \x7b s = s + \"a\"; if (s != t) f(); \x7d f();"

/-- An input can be run from here whose calls nest up to the limit and then all return. -/
def Nests (s : Session) : Prop :=
  ∃ s' input k n, s.accept .program nestingSource = (s', .ok input) ∧
    (s'.resume k).machine.activations.length = maxDepth ∧
    (s'.resume n).machine.result? = some (.ok .nil)

/-! ### The input -/

/-- A symbol on the first line. -/
def symbolToken (k : Symbol) : Token := ⟨.symbol k, k.text, 1⟩

/-- A string is doubled a number of times. -/
def doublings : ℕ → NodeId → List Stmt
  | 0, _ => []
  | n + 1, i =>
    .expression (.assign (i + 3) (.name "t" 1)
      (.binary (.reference (i + 1) (.name "t" 1)) (symbolToken .plus)
        (.reference (i + 2) (.name "t" 1)))) ::
      doublings n (i + 4)

/-- A string grows, and unless it is as long as another one the function calls itself. -/
def nestingBody (i : NodeId) : List Stmt :=
  [.expression (.assign (i + 2) (.name "s" 1)
      (.binary (.reference (i + 1) (.name "s" 1)) (symbolToken .plus) (.literal (.string "a")))),
    .branch (.binary (.reference (i + 3) (.name "s" 1)) (symbolToken .bangEqual)
        (.reference (i + 4) (.name "t" 1)))
      (.expression (.call (.reference (i + 5) (.name "f" 1)) (symbolToken .rightParen) [])) none]

def nestingFunction (i : NodeId) : FunctionDecl :=
  .mk (.name "f" 1) (some []) (nestingBody i)

/-- The tree of the program, with the number of its first node. -/
def nestingTree (i : NodeId) : List Stmt :=
  .declare (.name "t" 1) (some (.literal (.string "a"))) ::
    (doublings 14 i ++
      [.declare (.name "s" 1) (some (.literal (.string ""))),
        .function (nestingFunction (i + 56)),
        .expression (.call (.reference (i + 62) (.name "f" 1)) (symbolToken .rightParen) [])])

set_option maxRecDepth 100000 in
lemma read_nestingSource_zero :
    read .program nestingSource 0 = ⟨.ok (.statements (nestingTree 0)), 63⟩ := by
  cbv

lemma relabel_doublings (n i j : ℕ) :
    Stmt.relabelEach (.shift j 0) (doublings n i) = doublings n (i + j) := by
  induction n generalizing i with
  | zero => rfl
  | succ n ih =>
    rw [doublings, doublings, Stmt.relabelEach, ih]
    simp only [Stmt.relabel, Expr.relabel, Relabeling.shift, Nat.add_right_comm]
    rfl

lemma relabel_nestingTree (i : NodeId) :
    Stmt.relabelEach (.shift i 0) (nestingTree 0) = nestingTree (0 + i) := by
  rw [Stmt.relabelEach_eq_map, nestingTree, nestingTree, List.map_cons, List.map_append,
    ← Stmt.relabelEach_eq_map, relabel_doublings]
  simp only [nestingFunction, nestingBody, List.map_cons, List.map_nil, Stmt.relabel,
    Stmt.relabelDecl, Stmt.relabelEach, Expr.relabel, Expr.relabelEach, Relabeling.shift,
    Option.map_some, Nat.add_right_comm]
  rfl

/-- All names of the program are those of global variables. -/
lemma findings_nestingTree (i : NodeId) :
    (Scope.ofInput (.statements (nestingTree i))).complaints = [] ∧
      ∀ l ∈ (Scope.ofInput (.statements (nestingTree i))).lookups, l.depth = none := by
  have hrelabel : Scope.ofInput (.statements (nestingTree i)) =
      (Scope.ofInput (.statements (nestingTree 0))).relabel (.shift i 0) := by
    rw [← Scope.ofInput_relabel strictMono_id, Input.relabel, ← Stmt.relabelEach_eq_map,
      relabel_nestingTree, Nat.zero_add]
  have hfound : (Scope.ofInput (.statements (nestingTree 0))).complaints.isEmpty ∧
      ∀ l ∈ (Scope.ofInput (.statements (nestingTree 0))).lookups, l.depth = none := by
    decide +kernel
  rw [hrelabel]
  generalize Scope.ofInput (.statements (nestingTree 0)) = found at hfound
  obtain ⟨hcomplaints, hlookups⟩ := hfound
  refine ⟨?_, fun l hl => ?_⟩
  · exact List.map_eq_nil_iff.mpr (List.isEmpty_iff.mp hcomplaints)
  · obtain ⟨k, hk, rfl⟩ := List.mem_map.mp hl
    exact hlookups k hk

lemma addAll_of_global {known : Scope.Distances} {ls : List Scope.Lookup}
    (h : ∀ l ∈ ls, l.depth = none) : known.addAll ls = known := by
  induction ls with
  | nil => rfl
  | cons l ls ih =>
    obtain ⟨hl, hls⟩ := List.forall_mem_cons.mp h
    have hadd : known.add l = known := by
      unfold Scope.Distances.add
      rw [hl]
    exact (congrArg (Scope.Distances.addAll · ls) hadd).trans (ih hls)

lemma read_nestingSource (i : NodeId) :
    read .program nestingSource i = ⟨.ok (.statements (nestingTree i)), 63 + i⟩ := by
  have hshift := read_shift .program nestingSource 0 i
  rw [read_nestingSource_zero, Nat.zero_add, Parsed.relabel] at hshift
  dsimp only [Input.relabel] at hshift
  rw [← Stmt.relabelEach_eq_map, relabel_nestingTree, Nat.zero_add] at hshift
  exact hshift

/-- Nothing is recorded for an input that is accepted, if all its names are global. -/
lemma accept_of_global {s : Session} {mode : Mode} {source : String} {input : Grammar.Input}
    {j : NodeId} (hread : read mode source s.nextId = ⟨.ok input, j⟩)
    (hcomplaints : (Scope.ofInput input).complaints = [])
    (hlookups : ∀ l ∈ (Scope.ofInput input).lookups, l.depth = none) :
    s.accept mode source = ({ s with nextId := j }.load input, .ok input) := by
  unfold accept
  rw [hread]
  dsimp only
  unfold acceptTree
  dsimp only
  rw [hcomplaints, addAll_of_global hlookups]
  rfl

lemma accept_nestingSource (s : Session) : s.accept .program nestingSource =
    ({ s with nextId := 63 + s.nextId }.load (.statements (nestingTree s.nextId)),
      .ok (.statements (nestingTree s.nextId))) := by
  obtain ⟨hcomplaints, hlookups⟩ := findings_nestingTree s.nextId
  exact accept_of_global (read_nestingSource s.nextId) hcomplaints hlookups

/-! ### The run -/

/-- A string of some length. -/
def letters (n : ℕ) : String := String.ofList (List.replicate n 'a')

lemma letters_append (m n : ℕ) : letters m ++ letters n = letters (m + n) := by
  unfold letters
  rw [← String.ofList_append, List.replicate_append_replicate]

lemma letters_inj {m n : ℕ} : letters m = letters n ↔ m = n := by
  unfold letters
  rw [String.ofList_inj, List.replicate_left_inj]

section

variable {d : Setting} {w : World} {i id id' : NodeId} {j k m n : ℕ} {depth : ℕ} {env : Env}
  {name other : String} {e : Expr}

/-- A global variable is a string of some length. -/
def HasLetters (w : World) (name : String) (n : ℕ) : Prop :=
  w.frames.own? 0 name = some (.string (letters n))

lemma own?_write_self (h : 0 < w.frames.next) (name : String) (v : Value) :
    (w.write 0 name v).frames.own? 0 name = some v := by
  refine (Frames.own?_write ..).trans ?_
  rw [if_pos ⟨rfl, rfl, h⟩]

lemma own?_write_other (h : name ≠ other) (v : Value) :
    (w.write 0 name v).frames.own? 0 other = w.frames.own? 0 other := by
  refine (Frames.own?_write ..).trans ?_
  rw [if_neg fun hsame => h hsame.2.1]

lemma own?_addFrame (h : 0 < w.frames.next) (t : Table Value) (name : String) :
    (w.addFrame t).frames.own? 0 name = w.frames.own? 0 name := by
  refine (Frames.own?_push ..).trans ?_
  rw [if_neg h.ne]

/-- A string grows by another. -/
lemma evaluates_grow (hid : d.distances[id]? = none) (hid' : d.distances[id']? = none)
    (hm : HasLetters w name m)
    (hn : Evaluates d env depth (.eval e) w (.string (letters n)) w) :
    Evaluates d env depth (.exec (.expression (.assign id (.name name 1)
        (.binary (.reference id' (.name name 1)) (symbolToken .plus) e)))) w .nil
      (w.write 0 name (.string (letters (m + n)))) := by
  have hsum : Operator.binary (symbolToken .plus) (.string (letters m)) (.string (letters n)) =
      .ok (.string (letters (m + n))) := by
    rw [← letters_append]
    rfl
  have hbinds : w.frames.binds name 0 := Option.isSome_iff_exists.mpr ⟨_, hm⟩
  have hname : Evaluates d env depth (.eval (.reference id' (.name name 1))) w
      (.string (letters m)) w := evaluates_reference hid' hm
  exact evaluates_expression (evaluates_assign hid (evaluates_binary hname hn hsum) hbinds)

/-- The string that is doubled has the length of a power of two. -/
lemma goes_doublings (hd : ∀ id, i ≤ id → d.distances[id]? = none) (h : 0 < w.frames.next)
    (ht : HasLetters w "t" k) (env : Env) (depth : ℕ) : ∃ w',
      0 < w'.frames.next ∧ HasLetters w' "t" (Nat.pow 2 n * k) ∧
      ∀ rest ps, Goes d ⟨.execAll (doublings n i ++ rest), ps, env, depth, w⟩
        ⟨.execAll rest, ps, env, depth, w'⟩ := by
  induction n generalizing i w k with
  | zero =>
    have hsame : Nat.pow 2 0 * k = k := Nat.one_mul k
    exact ⟨w, h, hsame.symm ▸ ht, fun _ _ => .refl _⟩
  | succ n ih =>
    have hread : Evaluates d env depth (.eval (.reference (i + 2) (.name "t" 1))) w
        (.string (letters k)) w := evaluates_reference (hd (i + 2) (Nat.le_add_right ..)) ht
    have hdouble := evaluates_grow (hd (i + 3) (Nat.le_add_right ..))
      (hd (i + 1) (Nat.le_add_right ..)) ht hread
    have hw : 0 < (w.write 0 "t" (.string (letters (k + k)))).frames.next := by
      rwa [World.write, Frames.next_write]
    obtain ⟨w', hw', ht', hrest⟩ := ih (fun id hid => hd id (Nat.le_of_add_right_le hid)) hw
      (own?_write_self h "t" _)
    refine ⟨w', hw', ?_, fun rest ps => (goes_first hdouble _ ps).trans (hrest rest ps)⟩
    have hdoubled : Nat.pow 2 (n + 1) * k = Nat.pow 2 n * (k + k) := by
      rw [← Nat.two_mul, ← Nat.mul_assoc]
      rfl
    rwa [hdoubled]

/-- The globals where the function is called the next time, after some calls. -/
structure Counting (w : World) (i : NodeId) (j : ℕ) : Prop where
  next : 0 < w.frames.next
  goal : HasLetters w "t" maxDepth
  count : HasLetters w "s" j
  callee : ∃ id, w.frames.own? 0 "f" =
    some (.function id ⟨nestingFunction i, Env.globals, false⟩)

/-- The world after one more call is counted. -/
def counted (w : World) (j : ℕ) : World := w.write 0 "s" (.string (letters (j + 1)))

lemma Counting.grow (h : Counting w i j) : Counting (counted w j) i (j + 1) where
  next := by
    rw [counted, World.write, Frames.next_write]
    exact h.next
  goal := (own?_write_other (by decide) _).trans h.goal
  count := own?_write_self h.next ..
  callee := by
    obtain ⟨id, hid⟩ := h.callee
    exact ⟨id, (own?_write_other (by decide) _).trans hid⟩

lemma Counting.addFrame (h : Counting w i j) (t : Table Value) :
    Counting (w.addFrame t) i j where
  next := by
    rw [World.addFrame, Frames.next_push]
    exact Nat.succ_pos _
  goal := (own?_addFrame h.next ..).trans h.goal
  count := (own?_addFrame h.next ..).trans h.count
  callee := by
    obtain ⟨id, hid⟩ := h.callee
    exact ⟨id, (own?_addFrame h.next ..).trans hid⟩

/-- The function is called, and entered if there is room. -/
lemma Counting.goes_call (h : Counting w i j) (hid : d.distances[id]? = none)
    (hroom : depth < maxDepth) (ps : List Pending) :
    Goes d ⟨.exec (.expression (.call (.reference id (.name "f" 1)) (symbolToken .rightParen) [])),
        ps, env, depth, w⟩
      ⟨.execAll (nestingBody i),
        .leaveCall env ⟨nestingFunction i, Env.globals, false⟩ :: .discard :: ps,
        [w.frames.next, 0], depth + 1, w.addFrame []⟩ := by
  obtain ⟨n, hn⟩ := h.callee
  have hcallee : Evaluates d env depth (.eval (.reference id (.name "f" 1))) w
      (.function n ⟨nestingFunction i, Env.globals, false⟩) w := evaluates_reference hid hn
  exact .step (goes_enter hcallee rfl hroom _ (.discard :: ps))

/-- The call is the last, if the string has come to its length. -/
lemma Counting.evaluates_test (h : Counting w i j) (hid : d.distances[id]? = none)
    (hid' : d.distances[id']? = none) :
    Evaluates d env depth (.eval (.binary (.reference id (.name "s" 1)) (symbolToken .bangEqual)
      (.reference id' (.name "t" 1)))) w (.boolean (j != maxDepth)) w := by
  refine evaluates_binary (evaluates_reference hid h.count) (evaluates_reference hid' h.goal) ?_
  have hsame : (letters j == letters maxDepth) = (j == maxDepth) :=
    Bool.eq_iff_iff.mpr (by rw [beq_iff_eq, beq_iff_eq, letters_inj])
  change Except.ok (Value.boolean !(letters j == letters maxDepth)) = _
  rw [hsame]
  rfl

/-- The function counts its call, and goes on unless it is the last. -/
lemma Counting.goes_count (hd : ∀ id, i ≤ id → d.distances[id]? = none) (h : Counting w i j)
    (ps : List Pending) :
    Goes d ⟨.execAll (nestingBody i), ps, env, depth, w⟩
      (if j + 1 = maxDepth then ⟨.value .nil, ps, env, depth, counted w j⟩
      else ⟨.exec (.expression (.call (.reference (i + 5) (.name "f" 1))
        (symbolToken .rightParen) [])), .sequence [] :: ps, env, depth, counted w j⟩) := by
  have hletter : Evaluates d env depth (.eval (.literal (.string "a"))) w
      (.string (letters 1)) w := evaluates_literal _
  have hcount := evaluates_grow (hd (i + 2) (Nat.le_add_right ..))
    (hd (i + 1) (Nat.le_add_right ..)) h.count hletter
  have htest : Evaluates d env depth _ (counted w j) (.boolean (j + 1 != maxDepth)) _ :=
    h.grow.evaluates_test (hd (i + 3) (Nat.le_add_right ..)) (hd (i + 4) (Nat.le_add_right ..))
  refine (goes_first hcount _ ps).trans (.step ?_)
  split
  · rename_i hlast
    rw [bne_eq_false_iff_eq.mpr hlast] at htest
    exact (goes_skipped htest Bool.false_ne_true _ _).trans (.step (.step (.refl _)))
  · rename_i hmore
    rw [bne_iff_ne.mpr hmore] at htest
    exact goes_taken htest rfl _ _

/-- Where there is room for just as many calls as are still missing, all of them are made, and
return. -/
lemma Counting.goes_body (hd : ∀ id, i ≤ id → d.distances[id]? = none) (h : Counting w i j)
    (hk : j + k + 1 = maxDepth) (ps : List Pending) :
    (∃ r, Goes d ⟨.execAll (nestingBody i), ps, env, j + 1, w⟩ r ∧ r.depth = maxDepth) ∧
    ∃ w', Goes d ⟨.execAll (nestingBody i), ps, env, j + 1, w⟩
      ⟨.value .nil, ps, env, j + 1, w'⟩ := by
  induction k generalizing j w env ps with
  | zero =>
    have hcount : Goes d ⟨.execAll (nestingBody i), ps, env, j + 1, w⟩ _ := h.goes_count hd ps
    rw [if_pos hk] at hcount
    exact ⟨⟨_, .refl _, hk⟩, _, hcount⟩
  | succ k ih =>
    have hcount : Goes d ⟨.execAll (nestingBody i), ps, env, j + 1, w⟩ _ := h.goes_count hd ps
    rw [if_neg (by omega)] at hcount
    have hbody := hcount.trans (h.grow.goes_call (hd (i + 5) (Nat.le_add_right ..)) (by omega) _)
    obtain ⟨⟨r, hr, hdepth⟩, w', hw'⟩ := ih (h.grow.addFrame []) (by omega) _
    refine ⟨⟨r, hbody.trans hr, hdepth⟩, w', ?_⟩
    -- what is left of the body around the call that returned
    exact (hbody.trans hw').trans ((goes_leave rfl ..).trans (.step (.step (.step (.refl _)))))

/-- The program comes to its call. -/
lemma goes_declarations (hd : ∀ id, i ≤ id → d.distances[id]? = none)
    (h : 0 < w.frames.next) : ∃ w', Counting w' (i + 56) 0 ∧
      Goes d ⟨.execAll (nestingTree i), [], Env.globals, 0, w⟩
        ⟨.execAll [.expression (.call (.reference (i + 62) (.name "f" 1))
          (symbolToken .rightParen) [])], [], Env.globals, 0, w'⟩ := by
  have ht : Evaluates d Env.globals 0 (.eval (.literal (.string "a"))) w
      (.string (letters 1)) w := evaluates_literal _
  have hnext : 0 < (w.write 0 "t" (.string (letters 1))).frames.next := by
    rwa [World.write, Frames.next_write]
  obtain ⟨w₂, hnext₂, ht₂, hdoubled⟩ := goes_doublings (n := 14) hd hnext
    (own?_write_self h "t" _) Env.globals 0
  have hs : Evaluates d Env.globals 0 (.eval (.literal (.string ""))) w₂
      (.string (letters 0)) w₂ := evaluates_literal _
  let w₃ : World := (w₂.write 0 "s" (.string (letters 0))).addFunction
  have hnext₃ : 0 < w₃.frames.next := by
    change 0 < (w₂.frames.write ..).next
    rwa [Frames.next_write]
  refine ⟨_, ⟨?_, ?_, ?_, _, own?_write_self hnext₃ "f" _⟩,
    (goes_first (evaluates_declare ht) ..).trans ((hdoubled ..).trans
      ((goes_first (evaluates_declare hs) ..).trans (goes_first (evaluates_function _) ..)))⟩
  · rwa [World.write, Frames.next_write]
  · exact (own?_write_other (by decide) _).trans ((own?_write_other (by decide) _).trans ht₂)
  · exact (own?_write_other (by decide) _).trans (own?_write_self hnext₂ "s" _)

/-- At the top level there is room for all the calls. -/
lemma goes_nestingTree (hd : ∀ id, i ≤ id → d.distances[id]? = none) (h : 0 < w.frames.next) :
    (∃ r, Goes d ⟨.execAll (nestingTree i), [], Env.globals, 0, w⟩ r ∧ r.depth = maxDepth) ∧
    ∃ w', Goes d ⟨.execAll (nestingTree i), [], Env.globals, 0, w⟩
      ⟨.value .nil, [], Env.globals, 0, w'⟩ := by
  obtain ⟨w₁, h₁, hdeclared⟩ := goes_declarations hd h
  have hroom : 0 < maxDepth := by decide
  have hbody := hdeclared.trans
    (.step (h₁.goes_call (hd (i + 62) (Nat.le_add_right ..)) hroom _))
  have hd' : ∀ id, i + 56 ≤ id → d.distances[id]? = none :=
    fun id hid => hd id (Nat.le_of_add_right_le hid)
  obtain ⟨⟨r, hr, hdepth⟩, w', hw'⟩ := (h₁.addFrame []).goes_body (k := 16383) hd' rfl _
  refine ⟨⟨r, hbody.trans hr, hdepth⟩, w', ?_⟩
  exact (hbody.trans hw').trans ((goes_leave rfl ..).trans (.step (.step (.step (.refl _)))))

end

/-! ### Sessions -/

variable {services : List Service} {sink : Sink} {s : Session} {past : List Session}
  {inputs : List Grammar.Input}

/-- At every moment there is a frame of the globals. -/
lemma Course.next_pos (h : Course services sink past inputs) :
    ∀ s ∈ past, 0 < s.machine.world.frames.next := by
  induction h with
  | start => exact List.forall_mem_singleton.mpr Nat.one_pos
  | @step s _ _ _ ih =>
    refine List.forall_mem_cons.mpr ⟨?_, ih⟩
    have hbefore := ih s (List.mem_cons_self ..)
    change 0 < (s.machine.step ⟨s.distances, s.host⟩).world.frames.next
    cases step_reframes ⟨s.distances, s.host⟩ s.machine with
    | keeps h => rwa [h]
    | declares _ _ h => rwa [h, Frames.next_write]
    | assigns _ _ h => rwa [h, Frames.next_write]
    | opens _ _ h => rw [h, Frames.next_push]; exact Nat.succ_pos _
    | binds _ h => rw [h, Frames.next_push]; exact Nat.succ_pos _
    | bindsAndOpens _ _ _ h => rw [h, Frames.next_push]; exact Nat.succ_pos _
  | @refused s _ _ _ _ _ _ _ _ ha ih =>
    refine List.forall_mem_cons.mpr ⟨?_, ih⟩
    rw [(accept_eq_error ha).machine]
    exact ih s (List.mem_cons_self ..)
  | @accepted s _ _ _ _ _ _ _ _ ha ih =>
    refine List.forall_mem_cons.mpr ⟨?_, ih⟩
    obtain ⟨-, -, hs'⟩ := accept_eq_ok ha
    rw [hs']
    exact ih s (List.mem_cons_self ..)

/-- Nothing is known of the numbers that are not used yet. -/
lemma Course.unused (h : Course services sink past inputs) :
    ∀ s ∈ past, ∀ id, s.nextId ≤ id → s.distances[id]? = none := by
  have hread : ∀ {s : Session} {input : Grammar.Input} {j : NodeId},
      (∀ id, s.nextId ≤ id → s.distances[id]? = none) → Scope.ReadInput s.nextId input j →
      ∀ id, j ≤ id → (s.distances.addAll (Scope.ofInput input).lookups)[id]? = none := by
    intro s input j h hread
    have hrecorded : Scope.Recorded s.distances s.nextId [] :=
      ⟨List.forall_mem_nil _, List.forall_mem_nil _, h⟩
    exact (hrecorded.add hread).unused
  induction h with
  | start => exact List.forall_mem_singleton.mpr fun id _ => Std.TreeMap.getElem?_emptyc
  | @step s _ _ _ ih => exact List.forall_mem_cons.mpr ⟨ih s (List.mem_cons_self ..), ih⟩
  | @refused s s' _ _ _ _ _ _ _ ha ih =>
    refine List.forall_mem_cons.mpr ⟨fun id hid => ?_, ih⟩
    have hbefore := ih s (List.mem_cons_self ..)
    have hrefused := accept_eq_error ha
    obtain hsame | ⟨input, hinput, hadded⟩ := hrefused.distances
    · rw [hsame]
      exact hbefore id (hrefused.nextId.trans hid)
    · rw [hadded]
      exact hread hbefore hinput id hid
  | @accepted s s' _ _ _ _ _ _ _ ha ih =>
    refine List.forall_mem_cons.mpr ⟨fun id hid => ?_, ih⟩
    obtain ⟨hinput, -, hs'⟩ := accept_eq_ok ha
    have hadded := hread (ih s (List.mem_cons_self ..)) hinput id hid
    rwa [hs']

/-- Where a session rests, calls can be nested as deep as the limit allows. -/
lemma Course.nests (h : Course services sink (s :: past) inputs) (hs : s.machine.isHalted) :
    Nests s := by
  have hmem : s ∈ s :: past := List.mem_cons_self ..
  have hhome := h.home s hmem
  rw [home_eq (isHalted_iff.mp hs).1] at hhome
  obtain ⟨henv, hdepth⟩ := Prod.mk.inj hhome
  obtain ⟨s', haccept, hs'⟩ : ∃ s', s.accept .program nestingSource =
      (s', .ok (.statements (nestingTree s.nextId))) ∧ s' = _ := ⟨_, accept_nestingSource s, rfl⟩
  have hmachine : s'.machine =
      ⟨.execAll (nestingTree s.nextId), [], Env.globals, 0, s.machine.world⟩ := by
    rw [hs', ← henv, ← hdepth]
    rfl
  have hdistances : s'.distances = s.distances := by
    rw [hs']
    rfl
  obtain ⟨⟨r, ⟨k, hk⟩, hr⟩, w', n, hn⟩ := goes_nestingTree (d := ⟨s'.distances, s'.host⟩)
    (hdistances ▸ h.unused s hmem) (h.next_pos s hmem)
  rw [← hmachine] at hk hn
  refine ⟨s', _, k, n, haccept, ?_, ?_⟩
  · obtain ⟨more, -, hmore⟩ := (h.accepted hs haccept).resume k
    obtain ⟨hcount, -⟩ := balanced_iff.mp (hmore.balanced _ (List.mem_cons_self ..))
    rw [← hcount]
    exact (congrArg Machine.depth hk).trans hr
  · exact congrArg result? hn

/-- Every moment of a course is the last one of a shorter course. -/
lemma Course.moment (h : Course services sink past inputs) :
    ∀ s ∈ past, ∃ past' inputs', Course services sink (s :: past') inputs' := by
  induction h with
  | start => exact List.forall_mem_singleton.mpr ⟨[], [], .start⟩
  | step h ih => exact List.forall_mem_cons.mpr ⟨⟨_, _, h.step⟩, ih⟩
  | refused h hs ha ih => exact List.forall_mem_cons.mpr ⟨⟨_, _, h.refused hs ha⟩, ih⟩
  | accepted h hs ha ih => exact List.forall_mem_cons.mpr ⟨⟨_, _, h.accepted hs ha⟩, ih⟩

/-- At every moment of a session the depth of calls is the number of functions that are being
called, and a function is entered exactly if this is below the limit. Where the session rests,
however the inputs so far came to their ends, calls can be nested up to the limit. -/
theorem call_depth_exact (h : Course services sink past inputs) :
    ∀ s ∈ past, Counts s ∧ (s.machine.isHalted → Nests s) := by
  intro s hs
  refine ⟨counts_of_balanced (h.balanced s hs), fun hhalted => ?_⟩
  obtain ⟨past', inputs', hcourse⟩ := h.moment s hs
  exact hcourse.nests hhalted

/-- A function calls itself without end. -/
theorem call_depth_exact_in_recursion : ∃ (past : List Session) (input : Grammar.Input),
    60 ≤ past.length ∧ Course [] .unlimited past [input] ∧
      ∀ s ∈ past, Counts s ∧ (s.machine.isHalted → Nests s) := by
  obtain ⟨more, input, hlength, h⟩ := Course.first [] .unlimited .program
    "fun f() \x7b f(); \x7d f();" (by decide +kernel) 60
  exact ⟨_, input, hlength.trans (Nat.le_succ _), h, call_depth_exact h⟩

end Lox.Session
