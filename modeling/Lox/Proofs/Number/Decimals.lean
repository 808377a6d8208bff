import Mathlib.Data.List.TakeWhile
import Mathlib.Data.Nat.Cast.Field
import Mathlib.Data.Set.Function
import Lox.Number.Format
import Lox.Proofs.Number.Windows

/-!
Numbers written out with a point.

Digits, a point and digits stand for one number. A finite double that is not negative, written
without an exponent, is such a text, and the number it stands for rounds to the double. So two
doubles that are written alike are the same.
-/

namespace Lox.Number

/-- The text is digits, a point and digits, and stands for the number. -/
inductive Denotes : List Char → ℚ → Prop
  | point {ds es : List Char} : ds ≠ [] → (∀ d ∈ ds, d.isDigit) → es ≠ [] → (∀ d ∈ es, d.isDigit) →
      Denotes (ds ++ '.' :: es) (Nat.ofDigitChars 10 (ds ++ es) 0 * 10 ^ (-es.length : ℤ))

namespace Denotes

variable {w : List Char} {r r' : ℚ}

lemma takeWhile_point {ds es : List Char} (hds : ∀ d ∈ ds, d.isDigit) :
    (ds ++ '.' :: es).takeWhile Char.isDigit = ds := by
  rw [List.takeWhile_append_of_pos hds, List.takeWhile_cons_of_neg (by decide), List.append_nil]

/-- A text stands for one number. -/
lemma unique (h : Denotes w r) (h' : Denotes w r') : r = r' := by
  obtain @⟨ds, es, -, hds, -, -⟩ := h
  generalize htext : ds ++ '.' :: es = w at h'
  obtain @⟨ds', es', -, hds', -, -⟩ := h'
  have hfront : ds = ds' := by
    rw [← takeWhile_point hds, htext, takeWhile_point hds']
  subst hfront
  obtain ⟨-, rfl⟩ := List.cons.inj (List.append_cancel_left htext)
  rfl

end Denotes

/-! ### Digits -/

lemma toList_toString (n : ℕ) : (toString n).toList = Nat.toDigits 10 n := by
  rw [Nat.toString_eq_repr, Nat.toList_repr]

lemma isDigit_of_mem_toString {n : ℕ} {c : Char} (h : c ∈ (toString n).toList) : c.isDigit := by
  rw [toList_toString] at h
  exact Nat.isDigit_of_mem_toDigits (by decide) (by decide) h

/-- A whole number is written with one place. -/
lemma denotes_whole (n : ℕ) : Denotes (toString n ++ ".0").toList n := by
  have hne : (toString n).toList ≠ [] := by
    rw [toList_toString]
    exact Nat.toDigits_ne_nil
  have hpoint := Denotes.point hne (fun d => isDigit_of_mem_toString) (List.cons_ne_nil '0' [])
    (List.forall_mem_singleton.mpr rfl)
  rw [Nat.ofDigitChars_append, toList_toString, Nat.ofDigitChars_ten_toDigits] at hpoint
  have hvalue : Nat.ofDigitChars 10 ['0'] n = 10 * n := by simp [Nat.ofDigitChars_cons]
  have hsame : ((10 * n : ℕ) : ℚ) * 10 ^ (-(['0'].length : ℤ)) = n := by
    rw [Nat.cast_mul, mul_right_comm]
    norm_num
  rw [hvalue, hsame] at hpoint
  rw [String.toList_append, toList_toString]
  exact hpoint

/-- In positional notation a number with places stands for itself. -/
lemma denotes_positional {d : Decimal} (tail : String) (h : d.exponent < 0) :
    Denotes (d.positional tail).toList (d.digits * 10 ^ d.exponent) := by
  generalize hplaces : (-d.exponent).toNat = places
  generalize hpadded : List.replicate (places + 1 - (toString d.digits).length) '0' ++
    (toString d.digits).toList = padded
  have hlength : places + 1 ≤ padded.length := by
    rw [← hpadded, List.length_append, List.length_replicate, String.length_toList]
    omega
  have hdigits : ∀ c ∈ padded, c.isDigit := by
    intro c hc
    rw [← hpadded] at hc
    rcases List.mem_append.mp hc with hc | hc
    · rw [List.eq_of_mem_replicate hc]
      decide
    · exact isDigit_of_mem_toString hc
  have hvalue : Nat.ofDigitChars 10 padded 0 = d.digits := by
    rw [← hpadded, Nat.ofDigitChars_append, Nat.ofDigitChars_replicate_zero, mul_zero,
      toList_toString, Nat.ofDigitChars_ten_toDigits]
  have htext : (d.positional tail).toList = padded.take (padded.length - places) ++
      '.' :: padded.drop (padded.length - places) := by
    unfold Decimal.positional
    rw [if_neg (by omega)]
    dsimp only
    rw [hplaces, hpadded, List.splitAt_eq]
    simp
  have hback : (padded.drop (padded.length - places)).length = places := by
    rw [List.length_drop]
    omega
  have hfront : 0 < (padded.take (padded.length - places)).length := by
    rw [List.length_take]
    omega
  have hback' : 0 < (padded.drop (padded.length - places)).length := by omega
  have hpoint := Denotes.point (List.length_pos_iff.mp hfront)
    (fun c hc => hdigits c (List.mem_of_mem_take hc)) (List.length_pos_iff.mp hback')
    (fun c hc => hdigits c (List.mem_of_mem_drop hc))
  rw [List.take_append_drop, hback, hvalue] at hpoint
  rw [htext]
  convert hpoint using 2
  congr 1
  omega

/-! ### Doubles -/

/-- The fields of a finite double that is not negative. -/
lemma fields_of_finite {x : Float} {m : ℕ} {q : ℤ} (h : Binary.ofFloat x = .finite false m q) :
    Canonical m q ∧ q ≤ 971 ∧
      x.toBits.toNat = if m < 2 ^ 52 then m else (q + 1074).toNat * 2 ^ 52 + m := by
  unfold Binary.ofFloat at h
  dsimp only at h
  generalize (x.toBits.toNat : ℕ) = bits at h ⊢
  simp only [Nat.pow_eq] at h
  split at h
  · split at h <;> cases h
  · split at h <;> obtain ⟨hsign, rfl, rfl⟩ := Binary.finite.inj h
    all_goals
      have hlt := of_decide_eq_false hsign
      refine ⟨⟨by omega, by omega, by omega⟩, by omega, ?_⟩
      split <;> omega

/-- A finite double that is not negative is determined by significand and exponent. -/
lemma ofFloat_injective {x y : Float} {m : ℕ} {q : ℤ} (hx : Binary.ofFloat x = .finite false m q)
    (hy : Binary.ofFloat y = .finite false m q) : x = y := by
  have hbits : x.toBits = y.toBits :=
    UInt64.toNat_inj.mp ((fields_of_finite hx).2.2.trans (fields_of_finite hy).2.2.symm)
  cases x with | ofModel a
  cases y with | ofModel b
  cases a
  cases b
  cases hbits
  rfl

/-- A double without fractional part is the whole number. -/
lemma whole?_eq_some {m n : ℕ} {q : ℤ} {negative sign : Bool}
    (h : (Binary.finite negative m q).whole? = some (sign, n)) :
    sign = negative ∧ (n : ℚ) = m * 2 ^ q := by
  unfold Binary.whole? at h
  dsimp only at h
  simp only [Nat.pow_eq] at h
  split at h
  · rename_i hq
    cases h
    push_cast
    rw [← zpow_natCast, Int.toNat_of_nonneg hq]
    exact ⟨rfl, rfl⟩
  · split at h
    · rename_i hq hdvd
      cases h
      have hexp : q = -((-q).toNat : ℤ) := by omega
      generalize (-q).toNat = places at hexp hdvd ⊢
      rw [Nat.cast_div (Nat.dvd_of_mod_eq_zero hdvd) (by positivity), hexp, zpow_neg, zpow_natCast,
        Nat.cast_pow, Nat.cast_ofNat, div_eq_mul_inv]
      exact ⟨rfl, rfl⟩
    · cases h

/-- A double with a fractional part has one. -/
lemma whole?_eq_none {m : ℕ} {q : ℤ} {negative : Bool}
    (h : (Binary.finite negative m q).whole? = none) : q < 0 ∧ ¬2 ^ (-q).toNat ∣ m := by
  unfold Binary.whole? at h
  dsimp only at h
  simp only [Nat.pow_eq] at h
  split at h
  · cases h
  · split at h
    · cases h
    · rename_i hq hdvd
      exact ⟨by omega, fun hcon => hdvd (Nat.mod_eq_zero_of_dvd hcon)⟩

/-- The shortest number for a double with a fractional part has places. -/
lemma exponent_shortest {m : ℕ} {q : ℤ} (tie : Tie) (hc : Canonical m q)
    (hwhole : (Binary.finite false m q).whole? = none) :
    (shortest m q tie).exponent < 0 ∧
      Rounds m q ((shortest m q tie).digits * 10 ^ (shortest m q tie).exponent) := by
  obtain ⟨hq, hfraction⟩ := whole?_eq_none hwhole
  have hm : m ≠ 0 := fun h => hfraction (h ▸ Nat.dvd_zero _)
  have hrounds := rounds_shortest tie hc hm hq
  refine ⟨not_le.mp fun hcon => ?_, hrounds⟩
  have hnat : Rounds m q
      ((shortest m q tie).digits * 10 ^ (shortest m q tie).exponent.toNat : ℕ) := by
    push_cast
    rwa [← zpow_natCast, Int.toNat_of_nonneg hcon]
  exact hfraction (dvd_of_rounds hq hnat)

namespace Format

/-- Whole doubles are written out, with one place, and no double with an exponent. -/
structure Plain (f : Format) : Prop where
  exact : ∃ k, 1024 ≤ k ∧ f.exactBelow = Nat.pow 2 k
  tail : f.exactTail = ".0"
  positional : f.positional = none

variable {f : Format} {x y : Float} {m m' : ℕ} {q q' : ℤ}

/-- A finite double is written as a number that rounds to it. -/
lemma Plain.denotes (hf : f.Plain) (h : Binary.ofFloat x = .finite false m q) :
    ∃ r, Denotes (f.write x).toList r ∧ Rounds m q r := by
  obtain ⟨hc, hmax, -⟩ := fields_of_finite h
  have hwrite : f.write x = f.writeMagnitude m q := by
    unfold write
    rw [h]
    exact String.empty_append
  rw [hwrite]
  unfold writeMagnitude
  split
  · rename_i negative n hwhole
    obtain ⟨-, hvalue⟩ := whole?_eq_some hwhole
    obtain ⟨k, hk, hexact⟩ := hf.exact
    have hm : (m : ℚ) < 2 ^ 53 := by exact_mod_cast hc.lt
    have hlt : (n : ℚ) < 2 ^ k := calc
      (n : ℚ) = m * 2 ^ q := hvalue
      _ < 2 ^ 53 * 2 ^ q := mul_lt_mul_of_pos_right hm (by positivity)
      _ ≤ 2 ^ 53 * 2 ^ (971 : ℤ) :=
        mul_le_mul_of_nonneg_left (zpow_le_zpow_right₀ one_le_two hmax) (by positivity)
      _ = 2 ^ 1024 := by rw [← zpow_natCast, ← zpow_natCast, ← zpow_add₀ two_ne_zero]; rfl
      _ ≤ 2 ^ k := pow_le_pow_right₀ one_le_two hk
    have hbelow : n < f.exactBelow := by
      rw [hexact, Nat.pow_eq]
      exact_mod_cast hlt
    rw [if_pos hbelow, hf.tail]
    exact ⟨n, denotes_whole n, hvalue ▸ rounds_self m q⟩
  · rename_i hwhole
    obtain ⟨hplaces, hrounds⟩ := exponent_shortest f.tie hc hwhole
    unfold writeShort
    rw [hf.positional]
    exact ⟨_, denotes_positional _ hplaces, hrounds⟩

/-- Finite doubles that are not negative and are written alike are the same. -/
theorem Plain.write_injective (hf : f.Plain) (hx : Binary.ofFloat x = .finite false m q)
    (hy : Binary.ofFloat y = .finite false m' q') (h : f.write x = f.write y) : x = y := by
  obtain ⟨r, hr, hrounds⟩ := hf.denotes hx
  obtain ⟨r', hr', hrounds'⟩ := hf.denotes hy
  rw [h] at hr
  obtain rfl := hr.unique hr'
  obtain ⟨rfl, rfl⟩ := hrounds.unique (fields_of_finite hx).1 (fields_of_finite hy).1 hrounds'
  exact ofFloat_injective hx hy

/-- What is written for finite doubles that are not negative can be read back. -/
lemma Plain.exists_reader (hf : f.Plain) : ∃ read : List Char → Float, ∀ x m q,
    Binary.ofFloat x = .finite false m q → read (f.write x).toList = x := by
  have hinjective : Set.InjOn (fun x => (f.write x).toList)
      {x | ∃ m q, Binary.ofFloat x = .finite false m q} := by
    rintro x ⟨m, q, hx⟩ y ⟨m', q', hy⟩ h
    exact hf.write_injective hx hy (String.toList_injective h)
  exact ⟨_, fun x m q hx => hinjective.leftInvOn_invFunOn ⟨m, q, hx⟩⟩

end Format

end Lox.Number
