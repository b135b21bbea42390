import UpperConfidence.Proofs.Double.Value

/-!
# Exact arithmetic on integers

Every integer within `2 ^ 53` is a double. A sum or a product whose exact value is
such an integer is not rounded, whatever the operands are, and so is the count of a
double that stands for a natural number.
-/

namespace UpperConfidence.Double

open Float.Model Float.Model.UnpackedFloat

/-! ## Rounding an integer -/

theorem value_ofParts {s : Sign} {m : ℕ} {e : ℤ} {hm : 0 < m}
    (rounded : Rounded (.finite s m e hm)) (le : e ≤ 971) :
    value (ofParts (.finite s m e hm)) = some (((s.apply m : ℤ) : ℚ) * 2 ^ e) := by
  have regular : Regular (.finite s m e hm) := ⟨rounded, le⟩
  rw [value, parts_ofParts regular]
  rfl

/-- An integer within `2 ^ 53` that a mantissa of any length stands for has a rounded mantissa. -/
theorem exists_rounded_of_int {s : Sign} {M : ℕ} {E k : ℤ} (hM : 0 < M)
    (h : ((s.apply M : ℤ) : ℚ) * 2 ^ E = k) (bound : |k| ≤ 2 ^ 53) :
    ∃ m e hm, Rounded (.finite s m e hm) ∧ e ≤ 971 ∧ (M : ℚ) * 2 ^ E = m * 2 ^ e ∧
      ((s.apply m : ℤ) : ℚ) * 2 ^ e = k := by
  have pos := mantissa_value_pos hM E
  have magnitude : (M : ℚ) * 2 ^ E = k.natAbs := by
    rw [Nat.cast_natAbs, Int.cast_abs, ← h, apply_mul_zpow]
    cases s <;> simp [abs_of_pos pos]
  have nonzero : 0 < k.natAbs := by
    rw [magnitude] at pos
    exact_mod_cast pos
  obtain ⟨m, e, hm, rounded, le, eq⟩ := exists_rounded nonzero (by zify; exact bound) s
  refine ⟨m, e, hm, rounded, le, magnitude.trans eq.symm, ?_⟩
  rw [← h, apply_mul_zpow, apply_mul_zpow, eq, magnitude]

theorem value_round {s : Sign} {M : ℕ} {E k : ℤ} (hM : 0 < M)
    (h : ((s.apply M : ℤ) : ℚ) * 2 ^ E = k) (bound : |k| ≤ 2 ^ 53) :
    value (ofParts (UnpackedFloat.round .binary64 s M E)) = some (k : ℚ) := by
  obtain ⟨m, e, hm, rounded, le, same, eq⟩ := exists_rounded_of_int hM h bound
  rw [round_of_value s hM rounded same, value_ofParts rounded le, eq]

theorem value_roundWithAccuracy {s : Sign} {M : ℕ} {E k : ℤ} (hM : 0 < M)
    (h : ((s.apply M : ℤ) : ℚ) * 2 ^ E = k) (bound : |k| ≤ 2 ^ 53)
    (enough : E ≤ Format.binary64.targetExponent (totalExponent M E)) :
    value (ofParts (roundWithAccuracy .binary64 s M E .exact)) = some (k : ℚ) := by
  obtain ⟨m, e, hm, rounded, le, same, eq⟩ := exists_rounded_of_int hM h bound
  rw [totalExponent_congr hM hm same, rounded.targetExponent] at enough
  rw [roundWithAccuracy_of_value s rounded same enough, value_ofParts rounded le, eq]

/-- An exact result that is an integer within `2 ^ 53` is not rounded. -/
theorem value_normalize {S E k : ℤ} (h : (S : ℚ) * 2 ^ E = k) (bound : |k| ≤ 2 ^ 53) :
    value (ofParts (UnpackedFloat.normalize .binary64 S E .positive)) = some (k : ℚ) := by
  unfold UnpackedFloat.normalize
  cases order : compare S 0 with
  | lt =>
    have negative := Int.compare_eq_lt.mp order
    refine value_round (by omega) ?_ bound
    rwa [apply_negative, show -((-S).toNat : ℤ) = S by omega]
  | eq =>
    obtain rfl : S = 0 := Int.compare_eq_eq.mp order
    obtain rfl : k = 0 := by simpa using h.symm
    rw [Int.cast_zero]
    exact value_zero
  | gt =>
    have positive := Int.compare_eq_gt.mp order
    refine value_round (by omega) ?_ bound
    rwa [apply_positive, show (S.toNat : ℤ) = S by omega]

/-! ## Sums -/

theorem zero_or_negZero {x : Float} (h : value x = some 0) : x = 0 ∨ x = negZero := by
  rcases value_cases h with ⟨s, zx, -⟩ | ⟨s, m, e, hm, fx, eq⟩
  · cases s with
    | positive => exact .inl (parts_injective zx)
    | negative => exact .inr (parts_injective zx)
  · have pos := mantissa_value_pos hm e
    rw [apply_mul_zpow] at eq
    cases s <;> linarith

/-- Adding a zero of either sign keeps the value. -/
theorem value_add_zero {x : Float} (y : Float) (hx : value x = some 0) :
    value (x + y) = value y ∧ value (y + x) = value y := by
  by_cases signed : y = negZero
  · subst signed
    rcases zero_or_negZero hx with rfl | rfl <;> exact ⟨rfl, rfl⟩
  · rcases zero_or_negZero hx with rfl | rfl
    · rw [zero_add_of_ne signed, add_zero_of_ne signed]
      exact ⟨rfl, rfl⟩
    · rw [negZero_add, add_negZero]
      exact ⟨rfl, rfl⟩

theorem scaled_apply (s : Sign) (m : ℕ) {e f : ℤ} (h : f ≤ e) :
    ((s.apply (m <<< (e - f).toNat : ℕ) : ℤ) : ℚ) * 2 ^ f = (s.apply m : ℤ) * 2 ^ e := by
  rw [Nat.shiftLeft_eq, apply_mul_zpow, apply_mul_zpow, scaled_value m h]

/-- The exact sum of two values with mantissas, before it is rounded. -/
theorem add_eq_normalize {x y : Float} {s t : Sign} {m n : ℕ} {e f : ℤ} {hm : 0 < m} {hn : 0 < n}
    (px : parts x = .finite s m e hm) (py : parts y = .finite t n f hn) :
    ∃ S : ℤ, x + y = ofParts (UnpackedFloat.normalize .binary64 S (min e f) .positive) ∧
      (S : ℚ) * 2 ^ min e f = (s.apply m : ℤ) * 2 ^ e + (t.apply n : ℤ) * 2 ^ f := by
  refine ⟨s.apply (m <<< (e - min e f).toNat : ℕ) + t.apply (n <<< (f - min e f).toNat : ℕ), ?_, ?_⟩
  · rw [add_def, px, py]
    rfl
  · rw [Int.cast_add, add_mul, scaled_apply s m (min_le_left e f),
      scaled_apply t n (min_le_right e f)]

/-- A sum of integers is exact if it is within `2 ^ 53`. -/
theorem value_add {x y : Float} {a b : ℤ} (hx : value x = some (a : ℚ))
    (hy : value y = some (b : ℚ)) (bound : |a + b| ≤ 2 ^ 53) :
    value (x + y) = some ((a + b : ℤ) : ℚ) := by
  rcases value_cases hx with ⟨s, -, za⟩ | ⟨s, m, e, hm, fx, ea⟩
  · obtain rfl : a = 0 := by exact_mod_cast za
    rw [(value_add_zero y hx).1, hy, zero_add]
  · rcases value_cases hy with ⟨t, -, zb⟩ | ⟨t, n, f, hn, fy, eb⟩
    · obtain rfl : b = 0 := by exact_mod_cast zb
      rw [(value_add_zero x hy).2, hx, add_zero]
    · obtain ⟨S, sum, exact⟩ := add_eq_normalize fx fy
      rw [sum]
      apply value_normalize _ bound
      rw [exact, ← ea, ← eb]
      push_cast
      rfl

/-! ## Products -/

theorem apply_mul (s t : Sign) (m n : ℕ) :
    (s * t).apply (m * n : ℕ) = s.apply m * t.apply n := by
  have signs : ∀ s t : Sign, (s * t).apply 1 = s.apply 1 * t.apply 1 := by
    rintro (_ | _) (_ | _) <;> rfl
  have split : ∀ (s : Sign) (k : ℤ), s.apply k = s.apply 1 * k := by
    rintro (_ | _) k <;> simp
  rw [split, signs, split s m, split t n]
  push_cast
  ring

/-- A product of integers is exact if it is within `2 ^ 53`. -/
theorem value_mul {x y : Float} {a b : ℤ} (hx : value x = some (a : ℚ))
    (hy : value y = some (b : ℚ)) (bound : |a * b| ≤ 2 ^ 53) :
    value (x * y) = some ((a * b : ℤ) : ℚ) := by
  have zero (s : Sign) : value (ofParts (.zero s)) = some ((0 : ℤ) : ℚ) := by
    rw [value, parts_ofParts (u := .zero s) trivial]
    rfl
  rcases value_cases hx with ⟨s, px, za⟩ | ⟨s, m, e, hm, px, ea⟩
  · obtain rfl : a = 0 := by exact_mod_cast za
    rw [zero_mul]
    rcases value_cases hy with ⟨t, py, -⟩ | ⟨t, n, f, hn, py, -⟩ <;>
      · rw [mul_def, px, py]
        exact zero _
  · rcases value_cases hy with ⟨t, py, zb⟩ | ⟨t, n, f, hn, py, eb⟩
    · obtain rfl : b = 0 := by exact_mod_cast zb
      rw [mul_zero, mul_def, px, py]
      exact zero _
    · have exact : (((s * t).apply (m * n : ℕ) : ℤ) : ℚ) * 2 ^ (e + f) = ((a * b : ℤ) : ℚ) := by
        rw [apply_mul, Int.cast_mul, Int.cast_mul, ea, eb, zpow_add₀ (by norm_num)]
        ring
      rw [mul_def, px, py]
      exact value_roundWithAccuracy (by positivity) exact bound (mul_exponent_le px py)

/-! ## Doubles of integers -/

/-- The double of an integer, exact within `2 ^ 53`. -/
def ofInt (k : ℤ) : Float := ofParts (UnpackedFloat.ofInt .binary64 k)

theorem value_ofInt {k : ℤ} (bound : |k| ≤ 2 ^ 53) : value (ofInt k) = some (k : ℚ) :=
  value_normalize (by simp) bound

theorem value_ofNat {n : ℕ} (bound : n ≤ 2 ^ 53) : value (ofInt n) = some (n : ℚ) := by
  have exact := value_ofInt (k := n) (by rw [Nat.abs_cast]; exact_mod_cast bound)
  exact_mod_cast exact

theorem ofInt_ne_negZero (k : ℤ) : ofInt k ≠ negZero := by
  rw [ne_negZero_iff]
  exact parts_normalize_ne_negZero k (by decide)

theorem toFloat_eq_ofInt (n : UInt64) : n.toFloat = ofInt n.toNat := rfl

/-- The integer that a double stands for, if it does. -/
def integer (x : Float) : ℤ := ⌊(value x).getD 0⌋

theorem integer_of_value {x : Float} {k : ℤ} (h : value x = some (k : ℚ)) : integer x = k := by
  rw [integer, h, Option.getD_some, Int.floor_intCast]

/-! ## Counts -/

/-- The whole part of a double that is not negative. -/
theorem toInt_of_nonneg {x : Float} {v : ℚ} (h : value x = some v) (nonneg : 0 ≤ v)
    (low high : ℤ) : (parts x).toInt low high = ⌊v⌋ := by
  rcases value_cases h with ⟨s, px, rfl⟩ | ⟨s, m, e, hm, px, ev⟩
  · rw [px, Int.floor_zero]
    rfl
  · have pos := mantissa_value_pos hm e
    rw [apply_mul_zpow] at ev
    cases s with
    | negative => linarith
    | positive =>
      replace ev : v = m * 2 ^ e := ev
      rw [px]
      simp only [UnpackedFloat.toInt, roundToInt, decreaseExponent, shiftToExponent, apply_positive,
        mantissa_shiftRight, mantissa_ofMantissaAndAccuracy, Nat.shiftLeft_eq]
      rcases le_total 0 e with le | le
      · have none : (0 - (e - ((e - 0).toNat : ℤ))).toNat = 0 := by omega
        have scaled := scaled_value m le
        rw [zpow_zero, Rat.mul_one, ← ev] at scaled
        rw [none, pow_zero, Nat.div_one, ← scaled, Int.floor_natCast]
      · obtain ⟨k, rfl⟩ : ∃ k : ℕ, e = -k := ⟨(0 - e).toNat, by omega⟩
        have none : (-(k : ℤ) - 0).toNat = 0 := by omega
        have amount : (0 - (-(k : ℤ) - ((0 : ℕ) : ℤ))).toNat = k := by omega
        have quotient : v = ((m : ℤ) : ℚ) / ((2 ^ k : ℕ) : ℚ) := by
          rw [ev, zpow_neg, zpow_natCast, div_eq_mul_inv]
          push_cast
          rfl
        rw [none, amount, pow_zero, Nat.mul_one, quotient, Rat.floor_intCast_div_natCast]
        push_cast
        rfl

/-- The count of a double is its whole part if that has 64 bits. -/
theorem toNat_toUInt64_floor {x : Float} {v : ℚ} (h : value x = some v) (nonneg : 0 ≤ v)
    (bound : v < 2 ^ 64) : x.toUInt64.toNat = ⌊v⌋₊ := by
  have small : ⌊v⌋₊ < 2 ^ 64 := (Nat.floor_lt nonneg).mpr (by exact_mod_cast bound)
  change (UInt64.ofNatClamp ((parts x).toInt 0 (UInt64.size - 1)).toNat).toNat = ⌊v⌋₊
  rw [toInt_of_nonneg h nonneg, Int.floor_toNat, UInt64.ofNatClamp_eq_ofNat _ small,
    UInt64.toNat_ofNat_of_lt' small]

/-- The count of a double that stands for a natural number of 64 bits. -/
theorem toNat_toUInt64 {x : Float} {n : ℕ} (h : value x = some (n : ℚ)) (bound : n < 2 ^ 64) :
    x.toUInt64.toNat = n := by
  have floor := toNat_toUInt64_floor h n.cast_nonneg (by exact_mod_cast bound)
  rwa [Nat.floor_natCast] at floor

end UpperConfidence.Double
