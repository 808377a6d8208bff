import Mathlib.Algebra.Order.Field.Power
import Mathlib.Data.Rat.Cast.Order
import Mathlib.Tactic.FieldSimp
import Mathlib.Tactic.Linarith
import Mathlib.Tactic.Positivity
import Mathlib.Tactic.Ring
import Lox.Number.Shortest

/-!
The reals that round to a double.

They are an interval around the double, and the intervals of two doubles have no point in common:
where they touch, one of the two significands is odd, and its interval is open. The decimal number
that is found for a double lies in its interval, so it is found for no other.
-/

namespace Lox.Number

/-- A significand and an exponent as in a finite double. -/
structure Canonical (m : ℕ) (q : ℤ) : Prop where
  lt : m < 2 ^ 53
  le : -1074 ≤ q
  full : q ≠ -1074 → 2 ^ 52 ≤ m

/-- The number rounds to `m * 2 ^ q`: it lies between the midpoints to the two neighbours, or on one
of these if the significand is even. -/
structure Rounds (m : ℕ) (q : ℤ) (r : ℚ) : Prop where
  low : (4 * m - quartersBelow m q) * 2 ^ (q - 2) ≤ r
  high : r ≤ (4 * m + 2) * 2 ^ (q - 2)
  inside : m % 2 = 0 ∨ (4 * m - quartersBelow m q) * 2 ^ (q - 2) < r ∧
    r < (4 * m + 2) * 2 ^ (q - 2)

variable {m m' d : ℕ} {q q' k : ℤ} {r : ℚ}

lemma quartersBelow_le (m : ℕ) (q : ℤ) : quartersBelow m q ≤ 2 := by
  unfold quartersBelow
  split <;> omega

/-- A unit of the finer double goes more than once into that of the coarser one. -/
lemma two_zpow_le (h : q < q') : 2 * (2 : ℚ) ^ (q - 2) ≤ 2 ^ (q' - 2) := by
  have hpow : (2 : ℚ) * 2 ^ (q - 2) = 2 ^ (q - 1) := by
    rw [← zpow_one_add₀ two_ne_zero]
    congr 1
    ring
  rw [hpow]
  exact zpow_le_zpow_right₀ one_le_two (by omega)

/-! ### Disjoint intervals -/

/-- The intervals of a double and of a greater one with the same exponent at most touch. -/
lemma not_rounds_of_eq (hm : m < m') (h : Rounds m q r) (h' : Rounds m' q r) : False := by
  have hunit : (0 : ℚ) < 2 ^ (q - 2) := by positivity
  have hquarters := quartersBelow_le m' q
  have hle : (4 * m' - quartersBelow m' q : ℚ) ≤ 4 * m + 2 :=
    le_of_mul_le_mul_right (h'.low.trans h.high) hunit
  have hsum : 4 * m' ≤ 4 * m + 2 + quartersBelow m' q := by
    have : (4 * m' : ℚ) ≤ 4 * m + 2 + quartersBelow m' q := by linarith
    exact_mod_cast this
  have hnext : m' = m + 1 ∧ quartersBelow m' q = 2 := by omega
  obtain ⟨rfl, hq⟩ := hnext
  -- the point is the midpoint, and one of the two significands is odd
  have hends : (4 * (m + 1 : ℕ) - quartersBelow (m + 1) q : ℚ) = 4 * m + 2 := by
    rw [hq]
    push_cast
    ring
  have hlow := h'.low
  rw [hends] at hlow
  rcases h.inside with heven | hin
  · rcases h'.inside with heven' | hin'
    · omega
    · have := hin'.1
      rw [hends] at this
      exact absurd this (not_lt.mpr h.high)
  · exact absurd hin.2 (not_lt.mpr hlow)

/-- The intervals of a double and of one with a greater exponent at most touch. -/
lemma not_rounds_of_lt (hq : q < q') (hc : Canonical m q) (hc' : Canonical m' q')
    (h : Rounds m q r) (h' : Rounds m' q' r) : False := by
  have hunit : (0 : ℚ) < 2 ^ (q - 2) := by positivity
  have hle := hc.le
  have hfull := hc'.full (by omega)
  have hlt := hc.lt
  -- the lower end of the greater double, in quarters of its unit
  have hquarters : 2 ^ 54 - 1 + quartersBelow m' q' ≤ 4 * m' := by
    unfold quartersBelow
    split
    · omega
    · rename_i hne
      have : m' ≠ 2 ^ 52 := fun heq => hne ⟨heq, by omega⟩
      omega
  have hcast : (2 ^ 54 - 1 : ℚ) ≤ 4 * m' - quartersBelow m' q' := by
    have : ((2 ^ 54 - 1 + quartersBelow m' q' : ℕ) : ℚ) ≤ (4 * m' : ℕ) := by
      exact_mod_cast hquarters
    push_cast at this
    norm_num at this ⊢
    linarith
  have hlow : (2 ^ 55 - 2) * (2 : ℚ) ^ (q - 2) ≤ r := by
    refine le_trans ?_ h'.low
    calc (2 ^ 55 - 2) * (2 : ℚ) ^ (q - 2) = (2 ^ 54 - 1) * (2 * 2 ^ (q - 2)) := by ring
      _ ≤ (2 ^ 54 - 1) * 2 ^ (q' - 2) := by
        exact mul_le_mul_of_nonneg_left (two_zpow_le hq) (by norm_num)
      _ ≤ (4 * m' - quartersBelow m' q') * 2 ^ (q' - 2) :=
        mul_le_mul_of_nonneg_right hcast (by positivity)
  have hhigh : r ≤ (4 * m + 2) * 2 ^ (q - 2) := h.high
  have hmax : (2 ^ 55 - 2 : ℚ) ≤ 4 * m + 2 := le_of_mul_le_mul_right (hlow.trans hhigh) hunit
  have hlast : m = 2 ^ 53 - 1 := by
    have : ((2 ^ 55 - 2 : ℕ) : ℚ) ≤ ((4 * m + 2 : ℕ) : ℚ) := by
      push_cast
      norm_num at hmax ⊢
      linarith
    have : 2 ^ 55 - 2 ≤ 4 * m + 2 := by exact_mod_cast this
    omega
  subst hlast
  rcases h.inside with heven | hin
  · omega
  · refine absurd hin.2 (not_lt.mpr (le_trans (le_of_eq ?_) hlow))
    push_cast
    ring

/-- A number rounds to one double only. -/
theorem Rounds.unique (hc : Canonical m q) (hc' : Canonical m' q') (h : Rounds m q r)
    (h' : Rounds m' q' r) : m = m' ∧ q = q' := by
  rcases lt_trichotomy q q' with hq | rfl | hq
  · exact (not_rounds_of_lt hq hc hc' h h').elim
  · rcases lt_trichotomy m m' with hm | rfl | hm
    · exact (not_rounds_of_eq hm h h').elim
    · exact ⟨rfl, rfl⟩
    · exact (not_rounds_of_eq hm h' h).elim
  · exact (not_rounds_of_lt hq hc' hc h' h).elim

/-! ### Points of a grid -/

lemma two_zpow_eq (q : ℤ) : (2 : ℚ) ^ q = 4 * 2 ^ (q - 2) := by
  rw [zpow_sub₀ two_ne_zero]
  norm_num
  ring

/-- Whatever lies less than a quarter of a unit below the double rounds to it. -/
lemma rounds_of_near (hlow : m * 2 ^ q - 2 ^ (q - 2) < r) (hhigh : r ≤ m * 2 ^ q) :
    Rounds m q r := by
  have hunit : (0 : ℚ) < 2 ^ (q - 2) := by positivity
  have hquarter : (1 : ℚ) ≤ quartersBelow m q := by exact_mod_cast quartersBelow_pos m q
  rw [two_zpow_eq] at hlow hhigh
  have hlow' : (4 * m - quartersBelow m q) * (2 : ℚ) ^ (q - 2) < r := by nlinarith
  have hhigh' : r < (4 * m + 2) * (2 : ℚ) ^ (q - 2) := by nlinarith
  exact ⟨hlow'.le, hhigh'.le, .inr ⟨hlow', hhigh'⟩⟩

/-- A double rounds to itself. -/
lemma rounds_self (m : ℕ) (q : ℤ) : Rounds m q (m * 2 ^ q) :=
  rounds_of_near (sub_lt_self _ (by positivity)) le_rfl

lemma zpow_mul_toNat {a : ℚ} (ha : a ≠ 0) (n : ℤ) : a ^ n * a ^ (-n).toNat = a ^ n.toNat := by
  rw [← zpow_natCast, ← zpow_natCast, ← zpow_add₀ ha]
  congr 1
  omega

namespace Window

/-- The scale of a window is that of the double, over that of the grid. -/
lemma step_pos (m : ℕ) (q k : ℤ) : 0 < (ofGrid m q k).step :=
  Nat.mul_pos (Nat.pos_of_ne_zero (pow_ne_zero _ (by decide)))
    (Nat.pos_of_ne_zero (pow_ne_zero _ (by decide)))

/-- The unit of a window. -/
def scale (q k : ℤ) : ℕ := 2 ^ (q - 2).toNat * 10 ^ (-k).toNat

lemma scale_pos (q k : ℤ) : (0 : ℚ) < scale q k := by
  unfold scale
  positivity

/-- The step is one of the grid. -/
lemma step_mul (m : ℕ) (q k : ℤ) :
    ((ofGrid m q k).step : ℚ) * 2 ^ (q - 2) = scale q k * 10 ^ k := by
  have h2 := zpow_mul_toNat (two_ne_zero : (2 : ℚ) ≠ 0) (q - 2)
  have h10 := zpow_mul_toNat (by norm_num : (10 : ℚ) ≠ 0) k
  have hneg : -(q - 2) = 2 - q := by ring
  rw [hneg] at h2
  unfold ofGrid scale
  dsimp only
  simp only [Nat.pow_eq]
  push_cast
  rw [← h2, ← h10]
  ring

lemma scaled_le_iff {a : ℚ} : a * scale q k ≤ d * (ofGrid m q k).step ↔
    a * 2 ^ (q - 2) ≤ d * 10 ^ k := by
  have hunit : (0 : ℚ) < 2 ^ (q - 2) := by positivity
  rw [← mul_le_mul_iff_left₀ hunit, ← mul_le_mul_iff_left₀ (scale_pos q k) (b := a * 2 ^ (q - 2)),
    mul_assoc (d : ℚ), step_mul, mul_right_comm, mul_assoc (d : ℚ), mul_comm ((10 : ℚ) ^ k)]

lemma scaled_lt_iff {a : ℚ} : a * scale q k < d * (ofGrid m q k).step ↔
    a * 2 ^ (q - 2) < d * 10 ^ k := by
  have hunit : (0 : ℚ) < 2 ^ (q - 2) := by positivity
  rw [← mul_lt_mul_iff_left₀ hunit, ← mul_lt_mul_iff_left₀ (scale_pos q k) (b := a * 2 ^ (q - 2)),
    mul_assoc (d : ℚ), step_mul, mul_right_comm, mul_assoc (d : ℚ), mul_comm ((10 : ℚ) ^ k)]

/-- A point of the grid that a window holds rounds to the double. -/
lemma rounds_of_holds (h : (ofGrid m q k).holds d) : Rounds m q (d * 10 ^ k) := by
  have hlow : (ofGrid m q k).low = (4 * m - quartersBelow m q) * scale q k := rfl
  have hhigh : (ofGrid m q k).high = (4 * m + 2) * scale q k := rfl
  have hclosed : (ofGrid m q k).closed = decide (m % 2 = 0) := rfl
  have hcut : (4 * m - quartersBelow m q : ℚ) ≤ (4 * m - quartersBelow m q : ℕ) := by
    have hle : 4 * m ≤ (4 * m - quartersBelow m q) + quartersBelow m q := by omega
    have : ((4 * m : ℕ) : ℚ) ≤ ((4 * m - quartersBelow m q : ℕ) : ℚ) + quartersBelow m q := by
      exact_mod_cast hle
    push_cast at this
    linarith
  have hcutScaled := mul_le_mul_of_nonneg_right hcut (scale_pos q k).le
  have low_le : (4 * m - quartersBelow m q) * scale q k ≤ d * (ofGrid m q k).step →
      (4 * m - quartersBelow m q) * (2 : ℚ) ^ (q - 2) ≤ d * 10 ^ k := fun hle =>
    (scaled_le_iff (m := m)).mp (hcutScaled.trans (by exact_mod_cast hle))
  have low_lt : (4 * m - quartersBelow m q) * scale q k < d * (ofGrid m q k).step →
      (4 * m - quartersBelow m q) * (2 : ℚ) ^ (q - 2) < d * 10 ^ k := fun hlt =>
    (scaled_lt_iff (m := m)).mp (hcutScaled.trans_lt (by exact_mod_cast hlt))
  have high_le : d * (ofGrid m q k).step ≤ (4 * m + 2) * scale q k →
      (d * 10 ^ k : ℚ) ≤ (4 * m + 2) * 2 ^ (q - 2) := fun hle =>
    not_lt.mp fun hlt => not_lt.mpr (by exact_mod_cast hle) ((scaled_lt_iff (m := m)).mpr hlt)
  have high_lt : d * (ofGrid m q k).step < (4 * m + 2) * scale q k →
      (d * 10 ^ k : ℚ) < (4 * m + 2) * 2 ^ (q - 2) := fun hlt =>
    not_le.mp fun hle => not_le.mpr (by exact_mod_cast hlt) ((scaled_le_iff (m := m)).mpr hle)
  unfold holds at h
  dsimp only at h
  rw [hclosed, hlow, hhigh] at h
  by_cases heven : m % 2 = 0
  · rw [decide_eq_true heven, if_pos rfl, Bool.and_eq_true, decide_eq_true_eq,
      decide_eq_true_eq] at h
    exact ⟨low_le h.1, high_le h.2, .inl heven⟩
  · rw [decide_eq_false heven, if_neg Bool.false_ne_true, Bool.and_eq_true, decide_eq_true_eq,
      decide_eq_true_eq] at h
    exact ⟨low_le h.1.le, high_le h.2.le, .inr ⟨low_lt h.1, high_lt h.2⟩⟩

lemma holds_of_nearest? {w : Window} {tie : Tie} (h : w.nearest? tie = some d) : w.holds d := by
  unfold nearest? at h
  dsimp only at h
  split at h
  · cases h
  · cases h
    assumption
  · cases h
    assumption
  · split at h
    · cases h
      assumption
    · cases h
      assumption
    · cases h
      assumption
    · split at h <;> cases h <;> assumption

/-- The point of a fine grid below the double rounds to it. -/
lemma rounds_below (h : (10 : ℚ) ^ k ≤ 2 ^ (q - 2)) :
    Rounds m q (((ofGrid m q k).value / (ofGrid m q k).step : ℕ) * 10 ^ k) := by
  have hvalue : (ofGrid m q k).value = 4 * m * scale q k := rfl
  have hstep := step_pos m q k
  generalize hd : (ofGrid m q k).value / (ofGrid m q k).step = d
  have hle : d * (ofGrid m q k).step ≤ 4 * m * scale q k := by
    rw [← hd, ← hvalue]
    exact Nat.div_mul_le_self _ _
  have hlt : 4 * m * scale q k < (d + 1) * (ofGrid m q k).step := by
    rw [← hd, ← hvalue]
    exact Nat.lt_mul_of_div_lt (Nat.lt_succ_self _) hstep
  have hbelow : (d * 10 ^ k : ℚ) ≤ 4 * m * 2 ^ (q - 2) := by
    refine not_lt.mp fun hcon => ?_
    have := (scaled_lt_iff (m := m)).mpr hcon
    exact absurd this (not_lt.mpr (by exact_mod_cast hle))
  have habove : (4 * m * 2 ^ (q - 2) : ℚ) < (d + 1 : ℕ) * 10 ^ k := by
    refine (scaled_lt_iff (m := m)).mp ?_
    exact_mod_cast hlt
  push_cast at habove
  refine rounds_of_near ?_ ?_
  · rw [two_zpow_eq]
    linarith
  · rw [two_zpow_eq]
    linarith

end Window

/-- The decimal number that is found on the grids rounds to the double, if the last grid is fine. -/
lemma rounds_firstOnGrids (tie : Tie) {n : ℕ} {k : ℤ} (h : (10 : ℚ) ^ (k - n) ≤ 2 ^ (q - 2)) :
    Rounds m q ((firstOnGrids m q tie n k).digits * 10 ^ (firstOnGrids m q tie n k).exponent) := by
  induction n generalizing k with
  | zero =>
    rw [Nat.cast_zero, sub_zero] at h
    exact Window.rounds_below h
  | succ n ih =>
    rw [firstOnGrids]
    split
    · rename_i d hd
      exact Window.rounds_of_holds (Window.holds_of_nearest? hd)
    · refine ih ?_
      push_cast at h
      rwa [sub_sub, add_comm 1 (n : ℤ)]

/-! ### The shortest number -/

lemma two_pow_le_ten_pow {a b : ℕ} (h : 28 * b ≤ 93 * a) : 2 ^ b ≤ 10 ^ a := by
  have hbase : 2 ^ 93 ≤ 10 ^ 28 := by norm_num
  have hpow : (2 ^ b) ^ 28 ≤ (10 ^ a) ^ 28 := calc
    (2 ^ b) ^ 28 = 2 ^ (28 * b) := by rw [← pow_mul, mul_comm]
    _ ≤ 2 ^ (93 * a) := Nat.pow_le_pow_right (by decide) h
    _ = (2 ^ 93) ^ a := by rw [pow_mul]
    _ ≤ (10 ^ 28) ^ a := Nat.pow_le_pow_left hbase a
    _ = (10 ^ a) ^ 28 := by rw [← pow_mul, ← pow_mul, mul_comm]
  exact (Nat.pow_le_pow_iff_left (by decide)).mp hpow

/-- Of the grids for a double with a fractional part the last is fine enough. -/
lemma last_grid_le (hc : Canonical m q) (hm : m ≠ 0) (hq : q < 0) :
    (10 : ℚ) ^ (((m.log2 + 1 + q) * 30103 / 100000 + 1 : ℤ) - (20 : ℕ)) ≤ 2 ^ (q - 2) := by
  have hlog : m.log2 < 53 := (Nat.log2_lt hm).mpr hc.lt
  have hle := hc.le
  generalize hk : ((m.log2 + 1 + q) * 30103 / 100000 + 1 : ℤ) - (20 : ℕ) = k
  obtain ⟨a, rfl⟩ : ∃ a : ℕ, k = -a := ⟨(-k).toNat, by omega⟩
  obtain ⟨b, hb⟩ : ∃ b : ℕ, q - 2 = -b := ⟨(2 - q).toNat, by omega⟩
  have hpow : (2 : ℚ) ^ b ≤ 10 ^ a := by
    have : 2 ^ b ≤ 10 ^ a := two_pow_le_ten_pow (by omega)
    exact_mod_cast this
  rw [hb, zpow_neg, zpow_neg, zpow_natCast, zpow_natCast]
  exact inv_anti₀ (by positivity) hpow

/-- The shortest decimal number for a double with a fractional part rounds to it. -/
theorem rounds_shortest (tie : Tie) (hc : Canonical m q) (hm : m ≠ 0) (hq : q < 0) :
    Rounds m q ((shortest m q tie).digits * 10 ^ (shortest m q tie).exponent) := by
  unfold shortest
  rw [if_neg hm]
  exact rounds_firstOnGrids tie (last_grid_le hc hm hq)

/-- Only a double without fractional part has whole numbers that round to it. -/
lemma dvd_of_rounds {n : ℕ} (hq : q < 0) (h : Rounds m q n) : 2 ^ (-q).toNat ∣ m := by
  have hunit : (0 : ℚ) < 2 ^ (q - 2) := by positivity
  have hquarters := quartersBelow_le m q
  have hone : (4 * 2 ^ (-q).toNat : ℚ) * 2 ^ (q - 2) = 1 := by
    have hexp : ((-q).toNat : ℤ) = -q := by omega
    rw [mul_right_comm, ← two_zpow_eq, ← zpow_natCast, hexp, zpow_neg]
    exact mul_inv_cancel₀ (by positivity)
  have hn : (n : ℚ) = (4 * (2 ^ (-q).toNat * n)) * 2 ^ (q - 2) := by
    rw [← mul_assoc, mul_right_comm, hone, one_mul]
  have hlow := h.low
  have hhigh := h.high
  rw [hn] at hlow hhigh
  -- in quarters of the double's unit, the whole number is a multiple of four
  have hlow' : 4 * m ≤ 4 * (2 ^ (-q).toNat * n) + quartersBelow m q := by
    have := le_of_mul_le_mul_right hlow hunit
    have : (4 * m : ℚ) ≤ 4 * (2 ^ (-q).toNat * n) + quartersBelow m q := by linarith
    exact_mod_cast this
  have hhigh' : 4 * (2 ^ (-q).toNat * n) ≤ 4 * m + 2 := by
    exact_mod_cast le_of_mul_le_mul_right hhigh hunit
  exact ⟨n, by omega⟩

end Lox.Number
