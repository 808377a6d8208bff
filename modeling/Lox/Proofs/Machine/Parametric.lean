import Lox.Proofs.Machine.Likeness
import Lox.Proofs.Machine.Steps
import Lox.Service

/-!
Frames, classes and answers that are made of related parts.

To the surroundings functions are no more than what can be seen of them without a call. So what they
answer is related as their arguments are, whatever else the relation says.
-/

namespace Lox

namespace Machine

/-! ### Surroundings -/

/-- The surroundings know of functions only what can be seen of them without a call, and give back
plain values and what they are given. So to arguments that are related one by one they answer with
the same error or with related values. -/
def Host.Parametric (host : Host) : Prop :=
  ∀ R : Value → Value → Prop, (∀ v : Value, v.IsPlain → R v v) →
    (∀ v v', R v v' → Value.Like Closure.LooksLike Closure.LooksLike v v') →
      ∀ name args args', List.Forall₂ R args args' →
        LikeResult R (host name args) (host name args')

section
variable {F M : Closure → Closure → Prop}

lemma like_of_isPlain {v : Value} (h : v.IsPlain) : Value.Like F M v v := by
  cases v with
  | function => exact h.elim
  | classValue => exact h.elim
  | object => exact h.elim
  | _ => constructor

lemma Host.Parametric.like {host : Host} (h : host.Parametric)
    (hF : ∀ c c', F c c' → c.LooksLike c') (hM : ∀ c c', M c c' → c.LooksLike c')
    (name : String) {args args' : List Value} (hargs : List.Forall₂ (Value.Like F M) args args') :
    LikeResult (Value.Like F M) (host name args) (host name args') :=
  h (Value.Like F M) (fun _ => like_of_isPlain) (fun _ _ hv => hv.imp hF hM) name args args' hargs

end

/-! ### Frames -/

section
variable {R : Value → Value → Prop}

/-- The frame of a call, where the parameters may have other names. -/
lemma rel_parameterFrame {f : String → String} (hf : Function.Injective f) {g : Token → Token}
    (hg : ∀ p, (g p).lexeme = f p.lexeme) {args args' : List Value}
    (hargs : List.Forall₂ R args args') (params : List Token) (name : String) :
    Option.Rel R ((parameterFrame params args).get? name)
      ((parameterFrame (params.map g) args').get? (f name)) := by
  refine (Table.like_ofList ?_ hf).get? hf name
  induction hargs generalizing params with
  | nil => cases params <;> exact .nil
  | cons hv _ ih =>
    cases params with
    | nil => exact .nil
    | cons p params => exact .cons ⟨hg p, hv⟩ (ih params)

/-- The frame in which a method is bound to an object. -/
lemma rel_thisFrame {v v' : Value} (hv : R v v') (name : String) :
    Option.Rel R (Table.get? [("this", v)] name) (Table.get? [("this", v')] name) := by
  by_cases hname : "this" = name
  · subst hname
    exact .some hv
  · have hnone : ∀ w : Value, Table.get? [("this", w)] name = none := fun w => if_neg hname
    rw [hnone, hnone]
    exact .none

end

/-! ### Classes -/

section
variable {M : Closure → Closure → Prop} {env env' : Env}

/-- Members with the same name, that are related as functions of the two environments. -/
def LikeMembers (M : Closure → Closure → Prop) (env env' : Env) :
    List FunctionDecl → List FunctionDecl → Prop :=
  List.Forall₂ fun d d' => d'.name = d.name ∧ ∀ init, M ⟨d, env, init⟩ ⟨d', env', init⟩

/-- Of several members with one name the last counts, in both classes. Which of them are
initializers is a matter of the name. -/
lemma LikeMembers.rel_get? {ds ds' : List FunctionDecl} (h : LikeMembers M env env' ds ds')
    (init : String → Bool) (name : String) :
    let members (env : Env) (ds : List FunctionDecl) : Table Closure :=
      Table.ofList (ds.map fun d => (d.name.lexeme, ⟨d, env, init d.name.lexeme⟩))
    Option.Rel M ((members env ds).get? name) ((members env' ds').get? name) := by
  intro members
  refine (Table.like_ofList (f := id) ?_ Function.injective_id).get? Function.injective_id name
  rw [List.forall₂_map_left_iff, List.forall₂_map_right_iff]
  refine h.imp fun d d' hd => ?_
  obtain ⟨hname, hd⟩ := hd
  dsimp only [id]
  rw [hname]
  exact ⟨rfl, hd _⟩

lemma LikeMembers.likeClass {ms ms' ss ss' : List FunctionDecl}
    (hms : LikeMembers M env env' ms ms') (hss : LikeMembers M env env' ss ss') (name : String) :
    ClassInfo.Like M ⟨name, methodTable env ms, staticTable env ss⟩
      ⟨name, methodTable env' ms', staticTable env' ss'⟩ where
  name := rfl
  methods := hms.rel_get? (· = initName)
  statics := hss.rel_get? fun _ => false

end

end Machine

end Lox
