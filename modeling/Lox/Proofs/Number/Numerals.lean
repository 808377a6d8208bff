import Mathlib
import Lox.Number.Binary
import Lox.Source.Segment

/-!
The doubles that numerals stand for.

A numeral has no sign, and its value is a quotient of two numbers that are not negative, rounded.
So it is finite and not negative, or the positive infinity, however many digits there are.
-/

namespace Lox.Number

open Float.Model Float.Model.UnpackedFloat

/-- A number with the positive sign. -/
inductive Unsigned : UnpackedFloat → Prop
  | infinity : Unsigned (.infinity .positive)
  | zero : Unsigned (.zero .positive)
  | finite {m e hm} : Unsigned (.finite .positive m e hm)

lemma unsigned_roundWithAccuracy (f : Float.Model.Format) (m : ℕ) (e : ℤ) (a : Accuracy) :
    Unsigned (roundWithAccuracy f .positive m e a) := by
  unfold roundWithAccuracy
  dsimp only
  split
  · exact .zero
  · exact .finite

lemma unsigned_ofNat (f : Float.Model.Format) (n : ℕ) : Unsigned (UnpackedFloat.ofNat f n) := by
  unfold UnpackedFloat.ofNat UnpackedFloat.ofInt UnpackedFloat.normalize
  split
  · rename_i h
    have := Int.compare_eq_lt.mp h
    omega
  · exact .zero
  · exact unsigned_roundWithAccuracy ..

/-- The quotient by a positive number has the sign of the dividend. -/
lemma unsigned_div (f : Float.Model.Format) {u : UnpackedFloat} (hu : Unsigned u) (m : ℕ) (e : ℤ)
    (hm : 0 < m) : Unsigned (UnpackedFloat.div f u (.finite .positive m e hm)) := by
  cases hu with
  | infinity => exact .infinity
  | zero => exact .zero
  | finite => exact unsigned_roundWithAccuracy ..

lemma unsigned_ofScientific (f : Float.Model.Format) (m : ℕ) (e : ℤ) :
    Unsigned (UnpackedFloat.ofScientific f m e) := by
  unfold UnpackedFloat.ofScientific
  split
  · exact .zero
  · split
    · exact .infinity
    · split
      · exact .zero
      · split
        · exact unsigned_roundWithAccuracy ..
        · exact unsigned_div f .finite ..

/-! ### Bits -/

/-- The bits of a number without sign: none stands before the exponent, and if those of the exponent
are all set, no others are. -/
lemma Unsigned.exists_pack {u : UnpackedFloat} (hu : Unsigned u) :
    ∃ (e : BitVec 11) (m : BitVec 52),
      UnpackedFloat.pack .binary64 u = packComponents .binary64 .positive e m ∧
        (e = -1#11 → m = 0#52) := by
  cases hu with
  | infinity => exact ⟨_, _, rfl, fun _ => rfl⟩
  | zero => exact ⟨_, _, rfl, fun _ => rfl⟩
  | @finite m e hm =>
    unfold UnpackedFloat.pack
    dsimp only
    split
    · exact ⟨_, _, rfl, fun _ => rfl⟩
    · rename_i hlt
      split
      · refine ⟨_, _, rfl, fun h => absurd (congrArg BitVec.toNat h) ?_⟩
        have hones : (-1#11).toNat = 2 ^ 11 - 1 := rfl
        rw [BitVec.toNat_ofNat, hones, Nat.mod_eq_of_lt (by omega)]
        omega
      · exact ⟨_, _, rfl, fun h => absurd h (by decide)⟩

lemma toNat_packComponents (e : BitVec 11) (m : BitVec 52) :
    (packComponents .binary64 .positive e m).toNat = e.toNat * 2 ^ 52 + m.toNat := by
  have hsign : Sign.positive.toBitVec = 0#1 := rfl
  unfold packComponents
  rw [BitVec.toNat_append, BitVec.toNat_append, hsign, BitVec.toNat_zero, Nat.zero_shiftLeft,
    Nat.zero_or, Nat.shiftLeft_eq, mul_comm, Nat.two_pow_add_eq_or_of_lt m.isLt]

lemma unpackSign_packComponents {f : Float.Model.Format} {s : Sign} {e m} :
    unpackSign (packComponents f s e m) = s.toBitVec := by
  ext i hi
  have hindex : f.mantissaBitsWithoutImplicit + f.exponentBits + i - f.mantissaBitsWithoutImplicit -
      f.exponentBits = i := by omega
  simp only [unpackSign, packComponents, BitVec.getElem_cast, BitVec.getElem_extract,
    BitVec.getLsbD_append]
  rw [if_neg (by omega), if_neg (by omega), hindex, BitVec.getLsbD_eq_getElem hi]

/-- A number without sign is read back as one. -/
lemma Unsigned.unpack_pack {u : UnpackedFloat} (hu : Unsigned u) :
    Unsigned (Float.Model.pack u).unpack := by
  obtain ⟨e, m, hpack, hinfinite⟩ := hu.exists_pack
  have hsign : Sign.ofBitVec Sign.positive.toBitVec = .positive := rfl
  have hbits : (Float.Model.pack u).toBits.toBitVec = packComponents .binary64 .positive e m :=
    hpack
  unfold Float.Model.unpack UnpackedFloat.unpack
  rw [hbits]
  simp only [unpackExponent_packComponents, unpackMantissa_packComponents,
    unpackSign_packComponents, hsign]
  split
  · rename_i he
    rw [if_pos (hinfinite he)]
    exact .infinity
  · split
    · split
      · exact .zero
      · exact .finite
    · exact .finite

/-- A number without sign is infinite, or finite and not negative. -/
lemma Unsigned.ofFloat {u : UnpackedFloat} (hu : Unsigned u)
    (h : (Float.ofModel (Float.Model.pack u)).isInf = false) :
    ∃ m q, Binary.ofFloat (.ofModel (Float.Model.pack u)) = .finite false m q := by
  obtain ⟨e, m, hpack, hinfinite⟩ := hu.exists_pack
  have hbits : (Float.ofModel (Float.Model.pack u)).toBits.toNat = e.toNat * 2 ^ 52 + m.toNat := by
    rw [← toNat_packComponents, ← hpack]
    rfl
  have hm := m.isLt
  have he := e.isLt
  unfold Binary.ofFloat
  dsimp only
  rw [hbits]
  simp only [Nat.pow_eq]
  have hsign : decide (2 ^ 63 ≤ e.toNat * 2 ^ 52 + m.toNat) = false := decide_eq_false (by omega)
  rw [hsign]
  split
  · rename_i hexponent
    have hones : e = -1#11 := BitVec.eq_of_toNat_eq (show _ = 2047 by omega)
    obtain rfl := hinfinite hones
    subst hones
    have hunpack : (Float.Model.pack u).unpack = .infinity .positive :=
      congrArg (UnpackedFloat.unpack .binary64) hpack
    have hinf : (Float.Model.pack u).unpack.isInf = false := h
    rw [hunpack] at hinf
    cases hinf
  · split
    · exact ⟨_, _, rfl⟩
    · exact ⟨_, _, rfl⟩

/-! ### Numerals -/

/-- The powers of ten by which short numerals are divided. -/
lemma power_positive {e : ℕ} (he : e < Float.exactlyRepresentablePowersOfTen.size) :
    ∃ m k hm,
      Float.exactlyRepresentablePowersOfTen[e].toModel.unpack = .finite .positive m k hm := by
  have hall : Float.exactlyRepresentablePowersOfTen.all (fun x => match x.toModel.unpack with
      | .finite .positive .. => true | _ => false) = true := by decide +kernel
  have := Array.all_eq_true.mp hall e he
  split at this
  · exact ⟨_, _, _, by assumption⟩
  · cases this

/-- What is read from digits and places is a rounded number without sign. -/
lemma ofScientific_eq (n places : ℕ) : ∃ u, Unsigned u ∧
    Float.ofScientific n true places = .ofModel (Float.Model.pack u) := by
  unfold Float.ofScientific
  split
  · rename_i h
    obtain ⟨m, k, hm, hpower⟩ := power_positive (Nat.lt_succ_of_le h.2)
    refine ⟨_, unsigned_div .binary64
      (unsigned_ofNat .binary64 n.toUInt64.toNat).unpack_pack m k hm, ?_⟩
    rw [← hpower]
    rfl
  · exact ⟨_, unsigned_ofScientific .binary64 _ _, rfl⟩

/-- The value of a numeral is infinite, or finite and not negative. -/
theorem ofFloat_numberOfDigits {ds : List Char} {places : ℕ}
    (h : (Source.numberOfDigits ds places).isInf = false) :
    ∃ m q, Binary.ofFloat (Source.numberOfDigits ds places) = .finite false m q := by
  obtain ⟨u, hu, heq⟩ := ofScientific_eq (ds.foldl (fun n c => 10 * n + (c.toNat - '0'.toNat)) 0)
    places
  unfold Source.numberOfDigits at h ⊢
  rw [heq] at h ⊢
  exact hu.ofFloat h

end Lox.Number
