import Lox.Operator
import Lox.Proofs.Machine.Invariant
import Lox.Proofs.Tables

/-!
Values that differ in the code of functions only.

Operators, and what is shown of a value, do not depend on the code.
-/

namespace Lox

/-! ### Values -/

/-- What can be seen of two functions without a call is the same. -/
structure Closure.LooksLike (c c' : Closure) : Prop where
  name : c'.name = c.name
  arity : c'.arity = c.arity

/-- Classes whose methods are related, each to the one with the same name. -/
structure ClassInfo.Like (M : Closure → Closure → Prop) (c c' : ClassInfo) : Prop where
  name : c'.name = c.name
  methods : ∀ name, Option.Rel M (c.methods.get? name) (c'.methods.get? name)
  statics : ∀ name, Option.Rel M (c.statics.get? name) (c'.statics.get? name)

/-- The same values but for the code of functions, which `F` relates, and of methods, which `M`
relates. -/
inductive Value.Like (F M : Closure → Closure → Prop) : Value → Value → Prop
  | nil : Like F M .nil .nil
  | boolean {b} : Like F M (.boolean b) (.boolean b)
  | number {x} : Like F M (.number x) (.number x)
  | string {s} : Like F M (.string s) (.string s)
  | native {n} : Like F M (.native n) (.native n)
  | function {id c c'} : F c c' → Like F M (.function id c) (.function id c')
  | classValue {id c c'} : c.Like M c' → Like F M (.classValue id c) (.classValue id c')
  | object {id c c'} : c.Like M c' → Like F M (.object id c) (.object id c')

/-- The same error, or values that are related. -/
inductive LikeResult {ε : Type} (R : Value → Value → Prop) :
    Except ε Value → Except ε Value → Prop
  | ok {v v'} : R v v' → LikeResult R (.ok v) (.ok v')
  | error {e} : LikeResult R (.error e) (.error e)

section
variable {F M F' M' : Closure → Closure → Prop}

lemma ClassInfo.Like.imp {c c' : ClassInfo} (h : c.Like M c') (hM : ∀ c c', M c c' → M' c c') :
    c.Like M' c' where
  name := h.name
  methods name := Table.rel_mono hM (h.methods name)
  statics name := Table.rel_mono hM (h.statics name)

namespace Value.Like

variable {v v' w w' : Value}

lemma imp (h : Value.Like F M v v') (hF : ∀ c c', F c c' → F' c c')
    (hM : ∀ c c', M c c' → M' c c') : Value.Like F' M' v v' := by
  cases h with
  | function hc => exact .function (hF _ _ hc)
  | classValue hc => exact .classValue (hc.imp hM)
  | object hc => exact .object (hc.imp hM)
  | _ => constructor

lemma refl (hF : ∀ c, F c c) (hM : ∀ c, M c c) (v : Value) : Value.Like F M v v := by
  have hclass : ∀ c : ClassInfo, c.Like M c := fun c =>
    ⟨rfl, fun _ => Table.rel_self fun f _ => hM f, fun _ => Table.rel_self fun f _ => hM f⟩
  cases v with
  | function => exact .function (hF _)
  | classValue => exact .classValue (hclass _)
  | object => exact .object (hclass _)
  | _ => constructor

lemma isTruthy_eq (h : Value.Like F M v v') : v'.isTruthy = v.isTruthy := by
  cases h <;> rfl

lemma equals_eq (h : Value.Like F M v v') (h' : Value.Like F M w w') :
    v'.equals w' = v.equals w := by
  cases h <;> cases h' <;> rfl

lemma text_eq (hF : ∀ c c', F c c' → c.LooksLike c') (h : Value.Like F M v v') :
    v'.text = v.text := by
  cases h with
  | function hc => rw [text, (hF _ _ hc).name, text]
  | classValue hc => exact hc.name
  | object hc => exact congrArg (· ++ " instance") hc.name
  | _ => rfl

lemma arity?_eq (hF : ∀ c c', F c c' → c.LooksLike c') (hM : ∀ c c', M c c' → c.LooksLike c')
    (h : Value.Like F M v v') : v'.arity? = v.arity? := by
  cases h with
  | function hc => exact congrArg some (hF _ _ hc).arity
  | @classValue _ c c' hc =>
    have hinit := hc.methods initName
    rw [arity?, arity?, ClassInfo.arity, ClassInfo.arity, ClassInfo.initializer?,
      ClassInfo.initializer?]
    generalize c.methods.get? initName = f at hinit ⊢
    generalize c'.methods.get? initName = f' at hinit ⊢
    cases hinit with
    | none => rfl
    | some hf => exact congrArg some (hM _ _ hf).arity
  | _ => rfl

end Value.Like

open Machine in
/-- Of a value that a machine has, the functions and methods are only those that it can have. -/
lemma Machine.ValueOk.like {x : Scene} {v : Value} (hv : ValueOk x v)
    (hF : ∀ c, ClosureOk x c → F c c) (hM : ∀ c, MethodOk x c → M c c) : Value.Like F M v v := by
  have hclass : ∀ c : ClassInfo, ClassOk x c → c.Like M c := fun c hc =>
    ⟨rfl, fun name => Table.rel_self fun f hf => hM f (hc.methods name f hf),
      fun name => Table.rel_self fun f hf => hM f (hc.statics name f hf)⟩
  cases v with
  | function => exact .function (hF _ hv)
  | classValue => exact .classValue (hclass _ hv)
  | object => exact .object (hclass _ hv)
  | _ => constructor

/-! ### Operators -/

namespace Operator

variable {l l' v v' : Value} (op : Token)

lemma like_onNumbers {f : Float → Float → Value} (hf : ∀ a b, Value.Like F M (f a b) (f a b))
    (hl : Value.Like F M l l') (hv : Value.Like F M v v') :
    LikeResult (Value.Like F M) (onNumbers op l v f) (onNumbers op l' v' f) := by
  cases hl <;> cases hv <;> first | exact .error | exact .ok (hf _ _)

lemma like_divide (hl : Value.Like F M l l') (hv : Value.Like F M v v') :
    LikeResult (Value.Like F M) (divide op l v) (divide op l' v') := by
  cases hl <;> cases hv <;> try exact .error
  dsimp only [divide]
  split
  · exact .error
  · exact .ok .number

lemma like_add (hF : ∀ c c', F c c' → c.LooksLike c') (hl : Value.Like F M l l')
    (hv : Value.Like F M v v') :
    LikeResult (Value.Like F M) (add op l v) (add op l' v') := by
  have hltext := hl.text_eq hF
  have hvtext := hv.text_eq hF
  cases hl <;> cases hv <;>
    first
    | exact .error
    | exact .ok .number
    | (dsimp only [add]; rw [hvtext]; exact .ok .string)
    | (dsimp only [add]; rw [hltext]; exact .ok .string)

lemma like_unary (hv : Value.Like F M v v') :
    LikeResult (Value.Like F M) (unary op v) (unary op v') := by
  unfold unary
  rw [hv.isTruthy_eq]
  split
  · exact .ok .boolean
  · cases hv <;> first | exact .error | exact .ok .number
  · exact .error

lemma like_binary (hF : ∀ c c', F c c' → c.LooksLike c') (hl : Value.Like F M l l')
    (hv : Value.Like F M v v') :
    LikeResult (Value.Like F M) (binary op l v) (binary op l' v') := by
  unfold binary
  rw [hl.equals_eq hv]
  split
  case h_1 => exact .ok hv
  case h_2 => exact .ok .boolean
  case h_3 => exact .ok .boolean
  case h_4 => exact like_add op hF hl hv
  case h_7 => exact like_divide op hl hv
  case h_12 => exact .error
  case h_5 => exact like_onNumbers op (fun _ _ => .number) hl hv
  case h_6 => exact like_onNumbers op (fun _ _ => .number) hl hv
  all_goals exact like_onNumbers op (fun _ _ => .boolean) hl hv

lemma decides_eq (hv : Value.Like F M v v') : decides op v' = decides op v := by
  rw [decides, hv.isTruthy_eq, decides]

end Operator

end

end Lox
