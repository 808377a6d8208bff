import Lox.Proofs.Scope.Boxing
import Lox.Proofs.Scope.Findings
import Lox.Proofs.Scope.Recorded

/-!
The findings on trees in which some statements stand in blocks of their own.

In the scope of such a block nothing is declared. So each reference finds what it found before, and
only the number of scopes outward is another one. An input without complaints has none then either.
-/

namespace Lox.Scope

variable {marks : List Bool}

/-! ### Layers -/

/-- The open layers: where a scope was added there is one with no names, and the others are the
same. -/
inductive BoxedLayers : List Bool → List Layer → List Layer → Prop
  | nil : BoxedLayers [] [] []
  | same {marks l ls ls'} : BoxedLayers marks ls ls' →
      BoxedLayers (false :: marks) (l :: ls) (l :: ls')
  | added {marks ls ls'} : BoxedLayers marks ls ls' → BoxedLayers (true :: marks) ls ([] :: ls')

namespace BoxedLayers

variable {ls ls' : List Layer}

lemma findIdx? (h : BoxedLayers marks ls ls') (name : String) :
    ls'.findIdx? (·.contains name) = (ls.findIdx? (·.contains name)).map (outward marks) := by
  induction h with
  | nil => rfl
  | @same marks l ls ls' _ ih =>
    rw [List.findIdx?_cons, List.findIdx?_cons, ih]
    split
    · rfl
    · cases ls.findIdx? (·.contains name) <;> rfl
  | @added marks ls ls' _ ih =>
    rw [List.findIdx?_cons, ih]
    cases ls.findIdx? (·.contains name) <;> rfl

lemma refl (ls : List Layer) : BoxedLayers (List.replicate ls.length false) ls ls := by
  induction ls with
  | nil => exact .nil
  | cons l ls ih => exact .same ih

lemma modify (h : BoxedLayers marks ls ls') (f : Layer → Layer) (d : ℕ) :
    BoxedLayers marks (ls.modify d f) (ls'.modify (outward marks d) f) := by
  induction h generalizing d with
  | nil => cases d <;> exact .nil
  | same h ih =>
    cases d with
    | zero => exact .same h
    | succ d => exact .same (ih d)
  | added _ ih => exact .added (ih d)

end BoxedLayers

/-! ### Single notes -/

namespace Survey

/-- The second survey has found in the tree with more blocks what the first one has found. -/
structure Boxed (marks : List Bool) (s s' : Survey) : Prop where
  layers : BoxedLayers marks s.layers s'.layers
  complaints : s'.complaints = s.complaints

namespace Boxed

variable {s s' : Survey}

lemma clean (h : Boxed marks s s') (hs : s.Clean) : s'.Clean := h.complaints.trans hs

lemma complain (h : Boxed marks s s') (t : Token) (f : Fault) :
    Boxed marks (s.complain t f) (s'.complain t f) :=
  ⟨h.layers, congrArg (List.cons _) h.complaints⟩

lemma openLayer (h : Boxed marks s s') (l : Layer) :
    Boxed (false :: marks) (s.openLayer l) (s'.openLayer l) :=
  ⟨.same h.layers, h.complaints⟩

/-- The layer of a block that was added. -/
lemma openAdded (h : Boxed marks s s') : Boxed (true :: marks) s (s'.openLayer []) :=
  ⟨.added h.layers, h.complaints⟩

lemma closeLayer (h : Boxed (false :: marks) s s') : Boxed marks s.closeLayer s'.closeLayer := by
  obtain ⟨layers, lookups, complaints⟩ := s
  obtain ⟨layers', lookups', complaints'⟩ := s'
  obtain ⟨hlayers, hcomplaints⟩ := h
  dsimp only at hlayers hcomplaints
  cases hlayers with
  | same hrest =>
    refine ⟨?_, ?_⟩
    · rw [layers_closeLayer, layers_closeLayer]
      exact hrest
    · dsimp only [Survey.closeLayer]
      rw [complaints_foldl, complaints_foldl, hcomplaints]

lemma closeAdded (h : Boxed (true :: marks) s s') : Boxed marks s s'.closeLayer := by
  obtain ⟨layers', lookups', complaints'⟩ := s'
  obtain ⟨hlayers, hcomplaints⟩ := h
  dsimp only at hlayers
  cases hlayers with
  | added hrest => exact ⟨hrest, hcomplaints⟩

/-- Something is declared in a scope that was there before. -/
lemma cases_firm (h : Boxed marks s s') (hm : Firm marks) :
    s.layers = [] ∧ s'.layers = [] ∨ ∃ l ls ls' rest, s.layers = l :: ls ∧ s'.layers = l :: ls' ∧
      marks = false :: rest ∧ BoxedLayers rest ls ls' := by
  have hlayers := h.layers
  generalize s.layers = ls at hlayers
  generalize s'.layers = ls' at hlayers
  cases hlayers with
  | nil => exact .inl ⟨rfl, rfl⟩
  | same hrest => exact .inr ⟨_, _, _, _, rfl, rfl, rfl, hrest⟩
  | added => exact absurd rfl hm

lemma declare (h : Boxed marks s s') (hm : Firm marks) (name : Token) :
    Boxed marks (s.declare name) (s'.declare name) := by
  unfold Survey.declare
  obtain ⟨hs, hs'⟩ | ⟨l, ls, ls', rest, hs, hs', rfl, hrest⟩ := h.cases_firm hm
  · rw [hs, hs']
    exact h
  · rw [hs, hs']
    dsimp only
    split
    · exact h.complain name _
    · exact ⟨.same hrest, h.complaints⟩

lemma define (h : Boxed marks s s') (hm : Firm marks) (name : Token) :
    Boxed marks (s.define name) (s'.define name) := by
  unfold Survey.define
  obtain ⟨hs, hs'⟩ | ⟨l, ls, ls', rest, hs, hs', rfl, hrest⟩ := h.cases_firm hm
  · rw [hs, hs']
    exact h
  · rw [hs, hs']
    dsimp only
    split
    · exact ⟨.same hrest, h.complaints⟩
    · exact h

lemma introduce (h : Boxed marks s s') (hm : Firm marks) (name : Token) :
    Boxed marks (s.introduce name) (s'.introduce name) :=
  (h.declare hm name).define hm name

lemma params (h : Boxed marks s s') (hm : Firm marks) (ps : List Token) :
    Boxed marks (ps.foldl (·.introduce ·) s) (ps.foldl (·.introduce ·) s') := by
  induction ps generalizing s s' with
  | nil => exact h
  | cons p ps ih => exact ih (h.introduce hm p)

lemma depth? (h : Boxed marks s s') (name : String) :
    s'.depth? name = (s.depth? name).map (outward marks) :=
  h.layers.findIdx? name

lemma refer (h : Boxed marks s s') (id id' : NodeId) (name : String) (reads : Bool) :
    Boxed marks (s.refer id name reads) (s'.refer id' name reads) := by
  unfold Survey.refer
  rw [h.depth? name]
  refine ⟨?_, h.complaints⟩
  cases s.depth? name with
  | none => exact h.layers
  | some d =>
    cases reads with
    | false => exact h.layers
    | true => exact h.layers.modify _ d

/-- Where a name is not waiting for its value, it is not so in a scope that was added. -/
lemma readName (h : Boxed marks s s') (id id' : NodeId) (name : Token)
    (hclean : (s.readName id name).Clean) :
    Boxed marks (s.readName id name) (s'.readName id' name) := by
  have hwaits : s.isWaiting name.lexeme = false := by
    by_contra hw
    rw [Bool.not_eq_false] at hw
    unfold Survey.readName at hclean
    rw [hw] at hclean
    exact not_clean_complain ((leads_refer ..).clean hclean)
  have hwaits' : s'.isWaiting name.lexeme = false := by
    have hlayers := h.layers
    unfold isWaiting at hwaits ⊢
    generalize s.layers = ls at hlayers hwaits
    generalize s'.layers = ls' at hlayers ⊢
    cases hlayers with
    | nil => rfl
    | same => exact hwaits
    | added => rfl
  unfold Survey.readName
  rw [hwaits, hwaits']
  exact h.refer id id' name.lexeme true

lemma returnPlace (h : Boxed marks s s') (ctx : Context) (keyword : Token)
    {value value' : Option Expr} (hv : value'.isSome = value.isSome) :
    Boxed marks (s.returnPlace ctx keyword value) (s'.returnPlace ctx keyword value') := by
  unfold Survey.returnPlace
  rw [hv]
  dsimp only
  split <;> split
  · exact (h.complain keyword _).complain keyword _
  · exact h.complain keyword _
  · exact h.complain keyword _
  · exact h

end Boxed

end Survey

/-! ### Nodes -/

/-- The two numbers stand for references to the same variable: it is as much farther outward as
there are more scopes. -/
def Finds (known known' : Distances) (marks : List Bool) (id id' : NodeId) : Prop :=
  known'[id']? = known[id]?.map (outward marks)

/-- The surveys of two nodes find the same. -/
structure Node.FoundAlike (marks : List Bool) (n n' : Node) (ctx : Context) (s s' : Survey) : Prop
    where
  boxed : Survey.Boxed marks (n.survey ctx s) (n'.survey ctx s')
  finds : ∀ {known known' : Distances}, Survey.Known known (n.survey ctx s) →
    Survey.Known known' (n'.survey ctx s') → Node.Boxed (Finds known known') marks n n'

namespace Survey

variable {ctx : Context} {s s' : Survey}

/-- What one reference of a tree has found is what the other one finds. -/
lemma Boxed.finds (h : Boxed marks s s') {id id' : NodeId} {name : String} {reads : Bool}
    {known known' : Distances} (hknown : Known known (s.refer id name reads))
    (hknown' : Known known' (s'.refer id' name reads)) : Finds known known' marks id id' := by
  rw [Finds, known_refer reads hknown, known_refer reads hknown', h.depth? name]

lemma known_of_openLayer {known : Distances} {l : Layer} (h : Known known (s.openLayer l)) :
    Known known s := h

lemma known_of_readName {known : Distances} {id : NodeId} {name : Token}
    (h : Known known (s.readName id name)) : known[id]? = s.depth? name.lexeme := by
  unfold readName at h
  dsimp only at h
  split at h <;> exact known_refer true h

end Survey

open Survey in
/-- The survey of a node with more blocks finds the same. -/
theorem Node.Boxed.survey {P : List Bool → NodeId → NodeId → Prop} {n n' : Node}
    (h : Node.Boxed P marks n n') :
    ∀ {ctx : Context} {s s' : Survey}, Survey.Boxed marks s s' → (n.survey ctx s).Clean →
      Node.FoundAlike marks n n' ctx s s' := by
  induction h with
  | literal => exact fun hs _ => ⟨hs, fun _ _ => .literal⟩
  | group _ ih =>
    intro ctx s s' hs hclean
    obtain ⟨h, hfinds⟩ := ih hs hclean
    exact ⟨h, fun hk hk' => .group (hfinds hk hk')⟩
  | unary _ ih =>
    intro ctx s s' hs hclean
    obtain ⟨h, hfinds⟩ := ih hs hclean
    exact ⟨h, fun hk hk' => .unary (hfinds hk hk')⟩
  | @binary marks l l' op e e' _ _ ihl ihe =>
    intro ctx s s' hs hclean
    obtain ⟨hl, hfindsl⟩ := ihl hs ((leads_expr ctx e _).clean hclean)
    obtain ⟨he, hfindse⟩ := ihe hl hclean
    exact ⟨he, fun hk hk' => .binary
      (hfindsl ((leads_expr ctx e _).known hk) ((leads_expr ctx e' _).known hk')) (hfindse hk hk')⟩
  | @logical marks l l' op e e' _ _ ihl ihe =>
    intro ctx s s' hs hclean
    obtain ⟨hl, hfindsl⟩ := ihl hs ((leads_expr ctx e _).clean hclean)
    obtain ⟨he, hfindse⟩ := ihe hl hclean
    exact ⟨he, fun hk hk' => .logical
      (hfindsl ((leads_expr ctx e _).known hk) ((leads_expr ctx e' _).known hk')) (hfindse hk hk')⟩
  | @conditional marks c c' t t' e e' _ _ _ ihc iht ihe =>
    intro ctx s s' hs hclean
    have hcleant := (leads_expr ctx e _).clean hclean
    obtain ⟨hc, hfindsc⟩ := ihc hs ((leads_expr ctx t _).clean hcleant)
    obtain ⟨ht, hfindst⟩ := iht hc hcleant
    obtain ⟨he, hfindse⟩ := ihe ht hclean
    refine ⟨he, fun hk hk' => ?_⟩
    have hkt := (leads_expr ctx e _).known hk
    have hkt' := (leads_expr ctx e' _).known hk'
    exact .conditional
      (hfindsc ((leads_expr ctx t _).known hkt) ((leads_expr ctx t' _).known hkt'))
      (hfindst hkt hkt') (hfindse hk hk')
  | @reference marks id id' name _ =>
    intro ctx s s' hs hclean
    refine ⟨hs.readName id id' name hclean, fun hk hk' => .reference ?_⟩
    rw [Finds, known_of_readName hk, known_of_readName hk', hs.depth? name.lexeme]
  | @assign marks id id' name e e' _ _ ih =>
    intro ctx s s' hs hclean
    obtain ⟨he, hfinds⟩ := ih hs ((leads_refer ..).clean hclean)
    exact ⟨he.refer id id' name.lexeme false, fun hk hk' => .assign (he.finds hk hk')
      (hfinds ((leads_refer ..).known hk) ((leads_refer ..).known hk'))⟩
  | @call marks f f' paren es es' _ _ ihf ihes =>
    intro ctx s s' hs hclean
    have hargs (es : List Expr) (s : Survey) := leads_survey (.exprs es) ctx s
    obtain ⟨hf, hfindsf⟩ := ihf hs ((hargs es _).clean hclean)
    obtain ⟨hes, hfindses⟩ := ihes hf hclean
    exact ⟨hes, fun hk hk' => .call (hfindsf ((hargs es _).known hk) ((hargs es' _).known hk'))
      (hfindses hk hk')⟩
  | property _ ih =>
    intro ctx s s' hs hclean
    obtain ⟨h, hfinds⟩ := ih hs hclean
    exact ⟨h, fun hk hk' => .property (hfinds hk hk')⟩
  | @setProperty marks o o' name e e' _ _ iho ihe =>
    intro ctx s s' hs hclean
    obtain ⟨he, hfindse⟩ := ihe hs ((leads_expr ctx o _).clean hclean)
    obtain ⟨ho, hfindso⟩ := iho he hclean
    exact ⟨ho, fun hk hk' => .setProperty (hfindso hk hk')
      (hfindse ((leads_expr ctx o _).known hk) ((leads_expr ctx o' _).known hk'))⟩
  | @this marks id id' keyword _ =>
    intro ctx s s' hs hclean
    dsimp only [Node.survey, Survey.expr] at hclean ⊢
    have hclass : ctx.inClass = true := by
      by_contra hc
      rw [if_neg hc] at hclean
      exact not_clean_complain hclean
    refine ⟨?_, fun hk hk' => .this ?_⟩
    · dsimp only [Node.survey, Survey.expr]
      rw [if_pos hclass, if_pos hclass]
      exact hs.refer id id' keyword.lexeme true
    · dsimp only [Node.survey, Survey.expr] at hk hk'
      rw [if_pos hclass] at hk hk'
      exact hs.finds hk hk'
  | noExprs => exact fun hs _ => ⟨hs, fun _ _ => .noExprs⟩
  | @exprs marks e e' es es' _ _ ihe ihes =>
    intro ctx s s' hs hclean
    have hrest (es : List Expr) (s : Survey) := leads_survey (.exprs es) ctx s
    obtain ⟨he, hfindse⟩ := ihe hs ((hrest es _).clean hclean)
    obtain ⟨hes, hfindses⟩ := ihes he hclean
    exact ⟨hes, fun hk hk' => .exprs (hfindse ((hrest es _).known hk) ((hrest es' _).known hk'))
      (hfindses hk hk')⟩
  | expression _ ih =>
    intro ctx s s' hs hclean
    obtain ⟨h, hfinds⟩ := ih hs hclean
    exact ⟨h, fun hk hk' => .expression (hfinds hk hk')⟩
  | print _ ih =>
    intro ctx s s' hs hclean
    obtain ⟨h, hfinds⟩ := ih hs hclean
    exact ⟨h, fun hk hk' => .print (hfinds hk hk')⟩
  | @bare marks name hm => exact fun hs _ => ⟨hs.introduce hm name, fun _ _ => .bare hm⟩
  | @initialized marks name e e' hm _ ih =>
    intro ctx s s' hs hclean
    obtain ⟨he, hfinds⟩ := ih (hs.declare hm name) ((@leads_define [] _ name).clean hclean)
    exact ⟨he.define hm name, fun hk hk' => .initialized hm
      (hfinds ((@leads_define [] _ name).known hk) ((@leads_define [] _ name).known hk'))⟩
  | block _ ih =>
    intro ctx s s' hs hclean
    obtain ⟨hbody, hfinds⟩ := ih (hs.openLayer []) hclean.of_closeLayer
    exact ⟨hbody.closeLayer, fun hk hk' =>
      .block (hfinds (known_of_closeLayer hk) (known_of_closeLayer hk'))⟩
  | @ifThen marks c c' t t' _ _ ihc iht =>
    intro ctx s s' hs hclean
    obtain ⟨hc, hfindsc⟩ := ihc hs ((leads_stmt ctx t _).clean hclean)
    obtain ⟨ht, hfindst⟩ := iht hc hclean
    exact ⟨ht, fun hk hk' => .ifThen
      (hfindsc ((leads_stmt ctx t _).known hk) ((leads_stmt ctx t' _).known hk')) (hfindst hk hk')⟩
  | @ifElse marks c c' t t' e e' _ _ _ ihc iht ihe =>
    intro ctx s s' hs hclean
    have hcleant := (leads_stmt ctx e _).clean hclean
    obtain ⟨hc, hfindsc⟩ := ihc hs ((leads_stmt ctx t _).clean hcleant)
    obtain ⟨ht, hfindst⟩ := iht hc hcleant
    obtain ⟨he, hfindse⟩ := ihe ht hclean
    refine ⟨he, fun hk hk' => ?_⟩
    have hkt := (leads_stmt ctx e _).known hk
    have hkt' := (leads_stmt ctx e' _).known hk'
    exact .ifElse
      (hfindsc ((leads_stmt ctx t _).known hkt) ((leads_stmt ctx t' _).known hkt'))
      (hfindst hkt hkt') (hfindse hk hk')
  | @loop marks c c' body body' _ _ ihc ih =>
    intro ctx s s' hs hclean
    obtain ⟨hc, hfindsc⟩ := ihc hs ((leads_stmt ctx body _).clean hclean)
    obtain ⟨hbody, hfinds⟩ := ih hc hclean
    exact ⟨hbody, fun hk hk' => .loop
      (hfindsc ((leads_stmt ctx body _).known hk) ((leads_stmt ctx body' _).known hk'))
      (hfinds hk hk')⟩
  | breakLoop => exact fun hs _ => ⟨hs, fun _ _ => .breakLoop⟩
  | @function marks d d' hm hd ih =>
    intro ctx s s' hs hclean
    have hname : d'.name = d.name := by cases hd; rfl
    obtain ⟨hbody, hfinds⟩ := ih (hs.introduce hm d.name) hclean
    refine ⟨?_, fun hk hk' => .function hm (hfinds hk ?_)⟩
    · dsimp only [Node.survey, Survey.stmt]
      rw [hname]
      exact hbody
    · dsimp only [Node.survey, Survey.stmt] at hk'
      rwa [hname] at hk'
  | @returnNothing marks keyword =>
    exact fun hs _ => ⟨hs.returnPlace _ keyword rfl, fun _ _ => .returnNothing⟩
  | @returnValue marks keyword e e' _ ih =>
    intro ctx s s' hs hclean
    obtain ⟨h, hfinds⟩ := ih (hs.returnPlace ctx keyword rfl) hclean
    exact ⟨h, fun hk hk' => .returnValue (hfinds hk hk')⟩
  | @classDecl marks name ms ms' ss ss' hm _ hss ihms ihss =>
    intro ctx s s' hs hclean
    have hopened := (hs.introduce hm name).openLayer (.ofThis name)
    have hempty : ss'.isEmpty = ss.isEmpty := by cases hss <;> rfl
    dsimp only [Node.survey, Survey.stmt] at hclean
    by_cases hnone : ss.isEmpty
    · rw [if_pos hnone] at hclean
      obtain ⟨hms, hfindsms⟩ := ihms hopened hclean.of_closeLayer
      refine ⟨?_, fun hk hk' => ?_⟩
      · dsimp only [Node.survey, Survey.stmt]
        rw [hempty, if_pos hnone, if_pos hnone]
        exact hms.closeLayer
      · dsimp only [Node.survey, Survey.stmt] at hk hk'
        rw [hempty, if_pos hnone] at hk'
        rw [if_pos hnone] at hk
        obtain rfl := List.isEmpty_iff.mp hnone
        cases hss
        exact .classDecl hm (hfindsms (known_of_closeLayer hk) (known_of_closeLayer hk')) .noStatics
    · rw [if_neg hnone] at hclean
      have hstatics (ss : List FunctionDecl) (s : Survey) :=
        leads_staticList { ctx with inClass := true } ss s
      have hclean' := ((hstatics ss _).clean hclean.of_closeLayer).of_openLayer
      obtain ⟨hms, hfindsms⟩ := ihms hopened hclean'.of_closeLayer
      obtain ⟨hss', hfindsss⟩ := ihss (hms.closeLayer.openLayer (.ofThis name)) hclean.of_closeLayer
      refine ⟨?_, fun hk hk' => ?_⟩
      · dsimp only [Node.survey, Survey.stmt]
        rw [hempty, if_neg hnone, if_neg hnone]
        exact hss'.closeLayer
      · dsimp only [Node.survey, Survey.stmt] at hk hk'
        rw [hempty, if_neg hnone] at hk'
        rw [if_neg hnone] at hk
        replace hk := known_of_closeLayer hk
        replace hk' := known_of_closeLayer hk'
        have hkms := known_of_openLayer ((hstatics ss _).known hk)
        have hkms' := known_of_openLayer ((hstatics ss' _).known hk')
        exact .classDecl hm (hfindsms (known_of_closeLayer hkms) (known_of_closeLayer hkms'))
          (hfindsss hk hk')
  | @boxed marks d d' _ ih =>
    intro ctx s s' hs hclean
    obtain ⟨h, hfinds⟩ := ih hs.openAdded hclean
    exact ⟨h.closeAdded, fun hk hk' => .boxed (hfinds hk (known_of_closeLayer hk'))⟩
  | nil => exact fun hs _ => ⟨hs, fun _ _ => .nil⟩
  | @cons marks d d' ds ds' _ _ ih ihs =>
    intro ctx s s' hs hclean
    obtain ⟨hd, hfindsd⟩ := ih hs ((leads_stmts ctx ds _).clean hclean)
    obtain ⟨hds, hfindsds⟩ := ihs hd hclean
    exact ⟨hds, fun hk hk' => .cons
      (hfindsd ((leads_stmts ctx ds _).known hk) ((leads_stmts ctx ds' _).known hk'))
      (hfindsds hk hk')⟩
  | @body marks sort name params code code' _ ih =>
    intro ctx s s' hs hclean
    have hparams := (hs.openLayer []).params firm_cons (params.getD [])
    obtain ⟨hcode, hfinds⟩ := ih hparams (Clean.of_closeLayer hclean)
    exact ⟨hcode.closeLayer, fun hk hk' =>
      .body (hfinds (known_of_closeLayer hk) (known_of_closeLayer hk'))⟩
  | noMethods => exact fun hs _ => ⟨hs, fun _ _ => .noMethods⟩
  | @method marks d d' ds ds' hd _ ih ihs =>
    intro ctx s s' hs hclean
    have hsort : methodBody d' = methodBody d := by cases hd; rfl
    obtain ⟨hd, hfindsd⟩ := ih hs ((leads_methodList ctx ds _).clean hclean)
    obtain ⟨hds, hfindsds⟩ := ihs hd hclean
    refine ⟨?_, fun hk hk' => ?_⟩
    · dsimp only [Node.survey, methodList]
      rw [hsort]
      exact hds
    · dsimp only [Node.survey, methodList] at hk'
      rw [hsort] at hk'
      exact .method
        (hfindsd ((leads_methodList ctx ds _).known hk) ((leads_methodList ctx ds' _).known hk'))
        (hfindsds hk hk')
  | noStatics => exact fun hs _ => ⟨hs, fun _ _ => .noStatics⟩
  | @static marks d d' ds ds' _ _ ih ihs =>
    intro ctx s s' hs hclean
    obtain ⟨hd, hfindsd⟩ := ih hs ((leads_staticList ctx ds _).clean hclean)
    obtain ⟨hds, hfindsds⟩ := ihs hd hclean
    exact ⟨hds, fun hk hk' => .static
      (hfindsd ((leads_staticList ctx ds _).known hk) ((leads_staticList ctx ds' _).known hk'))
      (hfindsds hk hk')⟩

/-! ### Inputs -/

/-- In a function that was surveyed before, the references find what they found, as long as what was
recorded is kept. -/
lemma Visited.function_boxed {inputs : List Grammar.Input} {xs : List Region} {sort : Body}
    {d : FunctionDecl} {ctx : Context} {s : Survey}
    (h : Visited inputs xs (.function sort d) ctx s) {known known' : Distances} {i i' : NodeId}
    (hknown : Recorded known i inputs) (hknown' : Recorded known' i' inputs) :
    Node.Boxed (Finds known known') (List.replicate s.layers.length false) (.function sort d)
      (.function sort d) := by
  have hsound := h.sound hknown.accepted
  obtain ⟨input, hinput, hlookups⟩ := hsound.lookups
  have hself : Survey.Boxed (List.replicate s.layers.length false) s s := ⟨.refl s.layers, rfl⟩
  obtain ⟨-, hfinds⟩ := (Node.Boxed.function_refl sort d).survey hself hsound.clean
  exact hfinds (fun l hl => (hknown.depths input hinput l (hlookups l hl)).2)
    fun l hl => (hknown'.depths input hinput l (hlookups l hl)).2

end Lox.Scope
