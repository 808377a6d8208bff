import Lox.Proofs.Scope.Layers

/-!
How a survey keeps track of locals.

Whatever part of a tree a survey passes, three things are all it does about locals: names are read,
each in a layer of some height, names are added to the innermost layer, and complaints are made.
-/

namespace Lox

/-- Whether a complaint is about a fault in the use of names. -/
def Complaint.isOf (f : Scope.Fault) : Complaint → Bool
  | scope _ _ g => g = f
  | _ => false

namespace Scope

/-- The complaint about a name, where it stands. -/
def about (f : Fault) (t : Token) : Complaint := .scope t.line (.of t) f

/-- Whether a complaint is about a local, how it is declared or read. -/
def ofLocal (c : Complaint) : Bool :=
  c.isOf .neverRead || c.isOf .alreadyDeclared || c.isOf .readInOwnInitializer

/-- What there is to tell of the names that the innermost scope has. The names at the top level are
not kept track of. -/
def tracked {α : Type} (xs : List Enclosure) (f : List String → List α) : List α :=
  match xs with
  | [] => []
  | x :: _ => f x.names

/-- The tokens that add a name to the innermost scope. -/
def newcomers (xs : List Enclosure) (ts : List Token) : List Token := tracked xs (fresh · ts)

namespace Survey

open Enclosure

section
variable {xs ys : List Enclosure} {x : Enclosure} {s s' s'' : Survey} {t : Token}
  {ts us : List Token} {ls : List Layer} {l : Layer} {name : String} {h : ℕ}
  {P Q : ℕ → String → Prop} {cs ds : List Complaint}

/-! ### Names that are added -/

@[simp] lemma newcomers_nil (xs : List Enclosure) : newcomers xs [] = [] := by
  cases xs <;> rfl

lemma newcomers_append (xs : List Enclosure) (ts us : List Token) :
    newcomers xs (ts ++ us) =
      newcomers xs ts ++ newcomers (declaring xs (ts.map (·.lexeme))) us := by
  cases xs with
  | nil => rfl
  | cons x xs => exact fresh_append x.names ts us

/-- A newcomer has a name of its own. -/
lemma not_knows_newcomer (hc : Covers ls xs) (ht : t ∈ newcomers xs ts) :
    ¬Knows ls ls.length t.lexeme := by
  cases hc with
  | nil => exact id
  | @cons l x ls xs hl _ =>
    intro hk
    exact not_mem_of_mem_fresh _ _ ht ((hl t.lexeme).mp hk.contains)

lemma knows_of_distance? (hc : Covers ls xs) {d : ℕ} (hd : distance? xs name = some d)
    (hh : xs.length = d + h) : Knows ls h name := by
  rw [← findIdx?_of_covers hc] at hd
  rw [← hc.length_eq] at hh
  clear hc -- from here on the layers are all that matters
  induction ls generalizing d with
  | nil => exact absurd hd nofun
  | cons l ls ih =>
    rw [List.findIdx?_cons] at hd
    by_cases hl : l.contains name
    · rw [if_pos hl] at hd
      obtain rfl := Option.some.inj hd
      exact .inl ⟨by simpa using hh.symm, hl⟩
    · rw [if_neg hl] at hd
      obtain ⟨d', hd', rfl⟩ := Option.map_eq_some_iff.mp hd
      exact .inr (ih hd' (by simp only [List.length_cons] at hh; omega))

/-! ### Surveys in order -/

/-- The layers declare what the scopes around declare, and each is in order. -/
structure Ready (xs : List Enclosure) (s : Survey) : Prop where
  covers : Covers s.layers xs
  neat : ∀ l ∈ s.layers, l.Neat

/-- And no local waits for its value. -/
structure Settled (xs : List Enclosure) (s : Survey) : Prop extends Ready xs s where
  settled : ∀ l ∈ s.layers, ∀ p ∈ l, p.2.status ≠ .declared

/-- The second survey goes on from the first. Names are read as `P` says, each in the layer of some
height, the tokens are declared in the innermost scope, and there are some complaints about locals.
What is read is known at the end. -/
structure Tracks (xs : List Enclosure) (P : ℕ → String → Prop) (ts : List Token)
    (cs : List Complaint) (s s' : Survey) : Prop where
  layers : s'.layers = readingAll P (growing (newcomers xs ts) s.layers)
  complaints : (s'.complaints.filter ofLocal).Perm (cs ++ s.complaints.filter ofLocal)
  knows : ∀ h name, P h name → h ≤ s.layers.length → Knows s'.layers h name

lemma covers_growing (hc : Covers ls xs) (ts : List Token) :
    Covers (growing (newcomers xs ts) ls) (declaring xs (ts.map (·.lexeme))) := by
  cases hc with
  | nil => exact .nil
  | @cons l x ls xs hl hls =>
    refine .cons (fun name => ?_) hls
    rw [Table.contains_iff, Layer.keys_append_asLocal, List.mem_append, ← Table.contains_iff, hl]
    exact mem_names_fresh x.names ts

lemma covers_readingAll (hc : Covers ls xs) : Covers (readingAll P ls) xs := by
  induction hc with
  | nil => exact .nil
  | cons hl _ ih => exact .cons (fun name => by rw [Layer.contains_reading, hl name]) ih

lemma neat_growing (hc : Covers ls xs) (hl : ∀ l ∈ ls, l.Neat)
    (hts : ∀ t ∈ ts, t.lexeme ≠ "this") : ∀ l ∈ growing (newcomers xs ts) ls, l.Neat := by
  cases hc with
  | nil => exact hl
  | @cons l x ls xs hx _ =>
    obtain ⟨hl, hls⟩ := List.forall_mem_cons.mp hl
    refine List.forall_mem_cons.mpr ⟨hl.append ?_ (fun p hp hk => ?_) fun p hp => ?_, hls⟩
    · rw [List.map_map]
      exact nodup_fresh x.names ts
    · obtain ⟨t, ht, rfl⟩ := List.mem_map.mp hp
      exact not_mem_of_mem_fresh _ _ ht ((hx t.lexeme).mp hk)
    · obtain ⟨t, ht, rfl⟩ := List.mem_map.mp hp
      exact hts t (fresh_subset _ _ ht)

lemma Ready.after (hs : Ready xs s) (ht : Tracks xs P ts cs s s')
    (hts : ∀ t ∈ ts, t.lexeme ≠ "this") : Ready (declaring xs (ts.map (·.lexeme))) s' where
  covers := ht.layers ▸ covers_readingAll (covers_growing hs.covers ts)
  neat := ht.layers ▸ forall_readingAll (neat_growing hs.covers hs.neat hts)
    fun _ _ hl => hl.reading

lemma Settled.after (hs : Settled xs s) (ht : Tracks xs P ts cs s s')
    (hts : ∀ t ∈ ts, t.lexeme ≠ "this") : Settled (declaring xs (ts.map (·.lexeme))) s' where
  toReady := hs.toReady.after ht hts
  settled := by
    rw [ht.layers]
    refine forall_readingAll ?_ fun _ _ hl => Layer.forall_mem_reading hl fun _ _ => nofun
    have hsettled := hs.settled
    cases hlayers : s.layers with
    | nil => exact List.forall_mem_nil _
    | cons l ls =>
      rw [hlayers] at hsettled
      obtain ⟨hl, hls⟩ := List.forall_mem_cons.mp hsettled
      refine List.forall_mem_cons.mpr ⟨List.forall_mem_append.mpr ⟨hl, fun p hp => ?_⟩, hls⟩
      obtain ⟨t, -, rfl⟩ := List.mem_map.mp hp
      exact nofun

lemma Ready.after_reads (hs : Ready xs s) (h : Tracks xs P [] cs s s') : Ready xs s' := by
  have hafter := hs.after h (List.forall_mem_nil _)
  rwa [List.map_nil, Site.declaring_nil] at hafter

lemma Settled.after_reads (hs : Settled xs s) (h : Tracks xs P [] cs s s') : Settled xs s' := by
  have hafter := hs.after h (List.forall_mem_nil _)
  rwa [List.map_nil, Site.declaring_nil] at hafter

/-! ### One after the other -/

lemma Tracks.congr (h : Tracks xs P ts cs s s') (hPQ : ∀ h name, P h name ↔ Q h name)
    (hts : ts = us) (hcs : cs.Perm ds) : Tracks xs Q us ds s s' := by
  obtain rfl : P = Q := funext fun h => funext fun name => propext (hPQ h name)
  subst hts
  exact ⟨h.layers, h.complaints.trans (hcs.append_right _), h.knows⟩

lemma Tracks.trans (hs : Ready xs s) (h : Tracks xs P ts cs s s')
    (hys : ys = declaring xs (ts.map (·.lexeme))) (h' : Tracks ys Q us ds s' s'') :
    Tracks xs (fun h name => P h name ∨ Q h name) (ts ++ us) (cs ++ ds) s s'' := by
  subst hys
  have hcovers := covers_growing hs.covers ts
  have hlayers : s''.layers = readingAll (fun h name => P h name ∨ Q h name)
      (growing (newcomers xs (ts ++ us)) s.layers) := by
    rw [h'.layers, h.layers, growing_readingAll, readingAll_readingAll, growing_growing,
      newcomers_append]
    -- what the first part reads was known then, and so is no newcomer of the second
    intro u hu hP
    have hknows := h.knows _ _ hP (by simp)
    rw [h.layers, knows_readingAll] at hknows
    exact not_knows_newcomer hcovers hu hknows
  refine ⟨hlayers, ?_, fun h₁ name hPQ hh => ?_⟩
  · refine h'.complaints.trans ((h.complaints.append_left ds).trans ?_)
    rw [← List.append_assoc]
    exact List.perm_append_comm.append_right _
  · rcases hPQ with hP | hQ
    · rw [h'.layers, knows_readingAll]
      exact (h.knows _ _ hP hh).growing _
    · refine h'.knows _ _ hQ ?_
      rwa [h.layers, length_readingAll, length_growing]

/-- No names are declared or read. -/
lemma tracks_of_layers (hl : s'.layers = s.layers)
    (hc : s'.complaints.filter ofLocal = s.complaints.filter ofLocal) :
    Tracks xs (fun _ _ => False) [] [] s s' where
  layers := by
    rw [newcomers_nil, growing_nil, readingAll_eq_self fun _ _ _ => id, hl]
  complaints := .of_eq hc
  knows := fun _ _ h => h.elim

/-! ### Names that are read -/

/-- One of the tokens leads to a name of the scope that is the last but `h`, counted from the
outermost. -/
def Bound (xs : List Enclosure) (ts : List Token) (h : ℕ) (name : String) : Prop :=
  (∃ t ∈ ts, t.lexeme = name) ∧ ∃ d, distance? xs name = some d ∧ xs.length = d + h

lemma not_bound_nil : ¬Bound xs [] h name := by simp [Bound]

lemma bound_append :
    Bound xs (ts ++ us) h name ↔ Bound xs ts h name ∨ Bound xs us h name := by
  simp only [Bound, List.mem_append, or_and_right, exists_or]

/-- The reads of locals that wait for their value. Only the first read of each is complained of,
as the local does not wait any longer after that. -/
def warnings (s : Survey) (ts : List Token) : List Complaint :=
  ((fresh [] ts).filter (s.isWaiting ·.lexeme)).map (about .readInOwnInitializer)

lemma modify_mark (hls : ∀ l ∈ ls, l.Neat) {d : ℕ} (hd : d < ls.length) :
    ls.modify d (·.mark name .read) = readingAll (fun h n => n = name ∧ ls.length = d + h) ls := by
  induction ls generalizing d with
  | nil => exact absurd hd (Nat.not_lt_zero d)
  | cons l ls ih =>
    obtain ⟨hl, hls⟩ := List.forall_mem_cons.mp hls
    cases d with
    | zero =>
      rw [readingAll, readingAll_eq_self fun h hh n hn => by
        have := hn.2
        simp only [List.length_cons] at this
        omega]
      simp only [List.modify_zero_cons, Layer.mark_read hl.keys, List.length_cons, Nat.zero_add,
        and_true]
    | succ d =>
      have hd : d < ls.length := Nat.lt_of_succ_lt_succ hd
      rw [List.modify_succ_cons, ih hls hd, readingAll, Layer.reading_eq_self]
      · congr 1
        refine readingAll_congr fun h _ n => and_congr_right fun _ => ?_
        rw [List.length_cons]
        omega
      · rintro p - ⟨-, hlen⟩
        rw [List.length_cons] at hlen
        omega

lemma layers_refer (hs : Ready xs s) (id : NodeId) (t : Token) :
    (s.refer id t.lexeme true).layers = readingAll (Bound xs [t]) s.layers := by
  have hdepth : s.depth? t.lexeme = distance? xs t.lexeme := findIdx?_of_covers hs.covers t.lexeme
  have hlen := hs.covers.length_eq
  unfold refer
  dsimp only
  rw [hdepth]
  cases hd : distance? xs t.lexeme with
  | none =>
    refine (readingAll_eq_self ?_).symm
    rintro h - name ⟨⟨u, hu, rfl⟩, d, hd', -⟩
    obtain rfl := List.mem_singleton.mp hu
    exact absurd (hd.symm.trans hd') nofun
  | some d =>
    dsimp only
    have hlt : d < xs.length := by
      unfold distance? at hd
      exact (List.findIdx?_eq_some_iff_getElem.mp hd).1
    rw [modify_mark hs.neat (hlen ▸ hlt)]
    refine readingAll_congr fun h _ name => ?_
    constructor
    · rintro ⟨rfl, hh⟩
      exact ⟨⟨t, List.mem_singleton_self t, rfl⟩, d, hd, hlen ▸ hh⟩
    · rintro ⟨⟨u, hu, rfl⟩, d', hd', hh⟩
      obtain rfl := List.mem_singleton.mp hu
      obtain rfl : d = d' := Option.some.inj (hd.symm.trans hd')
      exact ⟨rfl, hlen.trans hh⟩

lemma tracks_readName (hs : Ready xs s) (id : NodeId) (t : Token) :
    Tracks xs (Bound xs [t]) [] (warnings s [t]) s (s.readName id t) := by
  have hlayers : (s.readName id t).layers = readingAll (Bound xs [t]) s.layers := by
    unfold readName
    split
    · exact @layers_refer xs (s.complain t .readInOwnInitializer) ⟨hs.covers, hs.neat⟩ id t
    · exact layers_refer hs id t
  refine ⟨by rw [newcomers_nil, growing_nil, hlayers], .of_eq ?_, fun h name hb _ => ?_⟩
  · by_cases hw : s.isWaiting t.lexeme <;>
      simp [readName, refer, complain, warnings, fresh, hw, about, ofLocal, Complaint.isOf]
  · obtain ⟨-, d, hd, hh⟩ := hb
    rw [hlayers, knows_readingAll]
    exact knows_of_distance? hs.covers hd hh

/-- A local that is read does not wait any longer. -/
lemma isWaiting_after (hs : Ready xs s) (h : Tracks xs (Bound xs ts) [] cs s s') (name : String) :
    s'.isWaiting name = (s.isWaiting name && name ∉ ts.map (·.lexeme)) := by
  have hcovers := hs.covers
  have hlayers := h.layers
  rw [newcomers_nil, growing_nil] at hlayers
  unfold isWaiting
  rw [hlayers]
  cases hsl : s.layers with
  | nil => rfl
  | cons l ls =>
    rw [hsl] at hcovers
    cases hcovers with
    | @cons _ x _ xs hl hls =>
      rw [readingAll, Bool.eq_iff_iff, Bool.and_eq_true, decide_eq_true_iff, decide_eq_true_iff,
        decide_eq_true_iff, Layer.status?_reading]
      refine and_congr_right fun hw => not_congr ?_
      -- what waits is in the innermost scope
      have hname : name ∈ x.names := (hl name).mp (Layer.contains_of_status? hw)
      have hd : distance? (x :: xs) name = some 0 := by
        simp [distance?, List.findIdx?_cons, hname]
      rw [List.mem_map]
      refine and_iff_left ⟨0, hd, ?_⟩
      rw [List.length_cons, hls.length_eq, Nat.zero_add]

lemma Tracks.reads_append (hs : Ready xs s)
    (h : Tracks xs (Bound xs ts) [] (warnings s ts) s s')
    (h' : Tracks xs (Bound xs us) [] (warnings s' us) s' s'') :
    Tracks xs (Bound xs (ts ++ us)) [] (warnings s (ts ++ us)) s s'' := by
  refine (h.trans hs (Site.declaring_nil xs).symm h').congr (fun _ _ => bound_append.symm) rfl
    (.of_eq ?_)
  have hfresh := fresh_eq_filter [] us (ts.map (·.lexeme))
  rw [List.append_nil] at hfresh
  unfold warnings
  rw [fresh_append, List.nil_append, hfresh, List.filter_append, List.map_append,
    List.filter_filter]
  congr 2
  exact List.filter_congr fun t _ => isWaiting_after hs h t.lexeme

/-! ### Names that are declared -/

/-- The complaints about the tokens whose names the innermost scope has already. -/
def repeats (xs : List Enclosure) (ts : List Token) : List Complaint :=
  (tracked xs (repeated · ts)).map (about .alreadyDeclared)

@[simp] lemma repeats_nil (xs : List Enclosure) : repeats xs [] = [] := by
  cases xs <;> rfl

lemma repeats_append (xs : List Enclosure) (ts us : List Token) :
    repeats xs (ts ++ us) =
      repeats xs ts ++ repeats (declaring xs (ts.map (·.lexeme))) us := by
  cases xs with
  | nil => rfl
  | cons x xs =>
    refine (congrArg _ (repeated_append x.names ts us)).trans ?_
    exact List.map_append

lemma define_eq (hl : s.layers = l :: ls) (t : Token) :
    (s.define t).layers = l.settle t.lexeme :: ls := by
  unfold define Layer.settle
  rw [hl]
  dsimp only
  split
  · rfl
  · exact hl

lemma complaints_define (s : Survey) (t : Token) : (s.define t).complaints = s.complaints := by
  unfold define
  split
  · rfl
  · split <;> rfl

lemma knows_define (hk : Knows s.layers h name) (t : Token) : Knows (s.define t).layers h name := by
  cases hl : s.layers with
  | nil =>
    rw [hl] at hk
    exact hk.elim
  | cons l ls =>
    rw [hl] at hk
    rw [define_eq hl, Knows, Layer.contains_settle]
    exact hk

lemma declare_of_nil (hl : s.layers = []) (t : Token) : s.declare t = s := by
  unfold declare
  rw [hl]

lemma declare_of_contains (hl : s.layers = l :: ls) (ht : l.contains t.lexeme) :
    s.declare t = s.complain t .alreadyDeclared := by
  unfold declare
  rw [hl]
  exact if_pos ht

lemma declare_of_not_contains (hl : s.layers = l :: ls) (ht : ¬l.contains t.lexeme) :
    s.declare t = { s with layers := l.declare t :: ls } := by
  unfold declare
  rw [hl]
  exact if_neg ht

/-- The value of a local is surveyed while the local waits for it. -/
lemma Ready.declare (hs : Ready xs s) (ht : t.lexeme ≠ "this") :
    Ready (declaring xs [t.lexeme]) (s.declare t) where
  covers := covers_declare hs.covers t
  neat := by
    have hneat := hs.neat
    cases hsl : s.layers with
    | nil =>
      rw [declare_of_nil hsl]
      exact hneat
    | cons l ls =>
      by_cases hc : l.contains t.lexeme
      · rw [declare_of_contains hsl hc]
        exact hneat
      · rw [declare_of_not_contains hsl hc]
        rw [hsl] at hneat
        obtain ⟨hl, hls⟩ := List.forall_mem_cons.mp hneat
        have hget : l.get? t.lexeme = none := by simpa [Table.contains] using hc
        refine List.forall_mem_cons.mpr ⟨?_, hls⟩
        rw [Layer.declare, Table.insert_of_get?_eq_none hget]
        exact hl.append (List.nodup_singleton _) (List.forall_mem_singleton.mpr hc)
          (List.forall_mem_singleton.mpr ht)

/-- A local is declared, its value is surveyed, and it is there from then on. -/
lemma tracks_declare (hs : Settled xs s)
    (h : Tracks (declaring xs [t.lexeme]) P [] cs (s.declare t) s') :
    Tracks xs P [t] (repeats xs [t] ++ cs) s (s'.define t) := by
  have hcovers := hs.covers
  have hsettled := hs.settled
  have hlayers : s'.layers = readingAll P (s.declare t).layers := by
    rw [h.layers, newcomers_nil, growing_nil]
  have hcomplaints := h.complaints
  have hknows : ∀ h name, P h name → h ≤ (s.declare t).layers.length →
      Knows (s'.define t).layers h name := fun _ _ hP hh => knows_define (h.knows _ _ hP hh) t
  rw [← complaints_define s' t] at hcomplaints
  cases hsl : s.layers with
  | nil =>
    rw [declare_of_nil hsl] at hlayers hcomplaints hknows
    rw [hsl] at hcovers hlayers
    cases hcovers
    refine ⟨?_, hcomplaints, hknows⟩
    unfold define
    rw [hsl, hlayers]
    exact hlayers
  | cons l ls =>
    rw [hsl] at hcovers hsettled
    obtain ⟨hl, -⟩ := List.forall_mem_cons.mp hsettled
    cases hcovers with
    | @cons _ x _ xs hx _ =>
      by_cases hc : l.contains t.lexeme
      · have hseen := (hx t.lexeme).mp hc
        have hnew : newcomers (x :: xs) [t] = [] := by simp [newcomers, tracked, fresh, hseen]
        have hrepeats : repeats (x :: xs) [t] = [about .alreadyDeclared t] := by
          simp [repeats, tracked, repeated, hseen]
        rw [declare_of_contains hsl hc] at hlayers hcomplaints hknows
        refine ⟨?_, ?_, hknows⟩
        · rw [complain, hsl] at hlayers
          rw [define_eq hlayers, Layer.settle_reading hl, hnew, growing_nil, hsl, readingAll]
        · rw [hrepeats]
          exact hcomplaints.trans List.perm_middle
      · have hseen := (hx t.lexeme).not.mp hc
        have hnew : newcomers (x :: xs) [t] = [t] := by simp [newcomers, tracked, fresh, hseen]
        have hrepeats : repeats (x :: xs) [t] = [] := by simp [repeats, tracked, repeated, hseen]
        have hget : l.get? t.lexeme = none := by simpa [Table.contains] using hc
        rw [declare_of_not_contains hsl hc] at hlayers hcomplaints hknows
        refine ⟨?_, by rwa [hrepeats], fun h name hP hh => hknows h name hP ?_⟩
        · rw [define_eq hlayers, Layer.settle_reading_declare hget, hnew, hsl]
          rfl
        · rwa [hsl] at hh

lemma tracks_introduce (hs : Settled xs s) (t : Token) :
    Tracks xs (fun _ _ => False) [t] (repeats xs [t]) s (s.introduce t) := by
  have h := tracks_declare hs (tracks_of_layers (s := s.declare t) rfl rfl)
  rwa [List.append_nil] at h

lemma tracks_params (hs : Settled xs s) {params : List Token}
    (hparams : ∀ p ∈ params, p.lexeme ≠ "this") :
    Tracks xs (fun _ _ => False) params (repeats xs params) s
      (params.foldl (·.introduce ·) s) := by
  induction params generalizing s xs with
  | nil =>
    rw [repeats_nil]
    exact tracks_of_layers rfl rfl
  | cons p ps ih =>
    obtain ⟨hp, hps⟩ := List.forall_mem_cons.mp hparams
    have hfirst := tracks_introduce hs p
    have hrest := ih (hs.after hfirst (List.forall_mem_singleton.mpr hp)) hps
    refine (hfirst.trans hs.toReady rfl hrest).congr (fun _ _ => or_self_iff) rfl (.of_eq ?_)
    exact (repeats_append xs [p] ps).symm

/-! ### Scopes that are closed -/

/-- At the end of a scope there is a complaint about each local that was not read. -/
lemma Tracks.closed (h : Tracks (x :: xs) P ts cs (s.openLayer l) s') :
    Tracks xs P [] (cs ++ (((l ++ (fresh x.names ts).map asLocal).reading
      (P (s.layers.length + 1))).unread).map (about .neverRead)) s s'.closeLayer := by
  have hlayers : s'.layers = (l ++ (fresh x.names ts).map asLocal).reading
      (P (s.layers.length + 1)) :: readingAll P s.layers := h.layers
  refine ⟨?_, ?_, fun h₁ name hP hh => ?_⟩
  · rw [layers_closeLayer, hlayers, newcomers_nil, growing_nil, List.tail_cons]
  · unfold closeLayer
    rw [hlayers]
    dsimp only
    rw [complaints_foldl, List.filter_append, List.filter_eq_self.mpr]
    · refine ((List.reverse_perm _).append h.complaints).trans ?_
      rw [← List.append_assoc]
      exact List.perm_append_comm.append_right _
    · intro c hc
      obtain ⟨t, -, rfl⟩ := List.mem_map.mp (List.mem_reverse.mp hc)
      rfl
  · have hknows := h.knows _ _ hP (Nat.le_succ_of_le hh)
    rw [layers_closeLayer, hlayers]
    rw [hlayers] at hknows
    exact hknows.of_cons (by rwa [length_readingAll])

end

end Survey

end Scope
end Lox
