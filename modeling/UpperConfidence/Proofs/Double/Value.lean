import UpperConfidence.Proofs.Double.Magnitude

/-!
# The value of a double

A finite double stands for a rational number, a zero of either sign for zero. Two
doubles of the same value differ at most in the sign of a zero, since rounded
mantissas are unique, and doubles are in the order of their values. A sum or a
product whose exact value is an integer within `2 ^ 53` has this value, and
the count of a double is its value.
-/

namespace UpperConfidence.Double

open Float.Model Float.Model.UnpackedFloat

/-- The rational number that finite parts stand for. -/
def partsValue : UnpackedFloat → Option ℚ
  | .zero _ => some 0
  | .finite s m e _ => some ((s.apply m : ℤ) * 2 ^ e)
  | _ => none

/-- The rational number that a finite double stands for. -/
def value (x : Float) : Option ℚ := partsValue (parts x)

@[simp] theorem value_zero : value 0 = some 0 := rfl

@[simp] theorem value_negZero : value negZero = some 0 := rfl

@[simp] theorem value_one : value 1 = some 1 := by
  simp only [value, parts_one, partsValue, Sign.apply]
  norm_num

@[simp] theorem value_two : value 2 = some 2 := by
  simp only [value, parts_two, partsValue, Sign.apply]
  norm_num

theorem isFinite_of_value {x : Float} {v : ℚ} (h : value x = some v) : x.isFinite = true := by
  rw [isFinite_def]
  unfold value at h
  cases hx : parts x <;> simp_all [partsValue, UnpackedFloat.isFinite]

theorem exists_value {x : Float} (h : x.isFinite = true) : ∃ v, value x = some v := by
  rw [isFinite_def] at h
  unfold value
  cases hx : parts x <;> simp_all [partsValue, UnpackedFloat.isFinite]

/-- A double with a value is a zero or has a mantissa. -/
theorem value_cases {x : Float} {v : ℚ} (h : value x = some v) :
    (∃ s, parts x = .zero s ∧ v = 0) ∨
      ∃ s m e hm, parts x = .finite s m e hm ∧ v = (s.apply m : ℤ) * 2 ^ e := by
  unfold value at h
  cases hx : parts x with
  | notANumber => simp [hx, partsValue] at h
  | infinity s => simp [hx, partsValue] at h
  | zero s => exact .inl ⟨s, rfl, by simpa [hx, partsValue] using h.symm⟩
  | finite s m e hm => exact .inr ⟨s, m, e, hm, rfl, by simpa [hx, partsValue] using h.symm⟩

/-! ## Powers of two -/

theorem two_zpow_pos (e : ℤ) : (0 : ℚ) < 2 ^ e := zpow_pos (by norm_num) e

/-- A mantissa brought to a smaller exponent. -/
theorem scaled_value (m : ℕ) {e f : ℤ} (h : f ≤ e) :
    ((m * 2 ^ (e - f).toNat : ℕ) : ℚ) * 2 ^ f = m * 2 ^ e := by
  have exponent : e = ((e - f).toNat : ℤ) + f := by omega
  conv_rhs => rw [exponent, zpow_add₀ (by norm_num), zpow_natCast]
  push_cast
  ring

theorem lt_of_totalExponent_le {m : ℕ} {e k : ℤ} (h : totalExponent m e ≤ k) :
    (m : ℚ) * 2 ^ e < 2 ^ k := by
  have bits : (m : ℚ) < 2 ^ (m.log2 + 1) := by exact_mod_cast Nat.lt_log2_self
  calc (m : ℚ) * 2 ^ e < 2 ^ (m.log2 + 1) * 2 ^ e := by gcongr
    _ = 2 ^ totalExponent m e := by
      rw [totalExponent, zpow_add₀ (by norm_num)]
      norm_cast
    _ ≤ 2 ^ k := zpow_le_zpow_right₀ (by norm_num) h

theorem le_of_le_totalExponent {m : ℕ} (hm : 0 < m) {e k : ℤ} (h : k < totalExponent m e) :
    (2 : ℚ) ^ k ≤ m * 2 ^ e := by
  have bits : (2 : ℚ) ^ m.log2 ≤ m := by exact_mod_cast Nat.log2_self_le hm.ne'
  calc (2 : ℚ) ^ k ≤ 2 ^ ((m.log2 : ℤ) + e) := by
        apply zpow_le_zpow_right₀ (by norm_num)
        simp only [totalExponent] at h
        omega
    _ = 2 ^ m.log2 * 2 ^ e := by rw [zpow_add₀ (by norm_num), zpow_natCast]
    _ ≤ m * 2 ^ e := by gcongr

theorem totalExponent_le_iff {m : ℕ} (hm : 0 < m) {e k : ℤ} :
    totalExponent m e ≤ k ↔ (m : ℚ) * 2 ^ e < 2 ^ k := by
  refine ⟨lt_of_totalExponent_le, fun h => ?_⟩
  by_contra above
  exact absurd (le_of_le_totalExponent hm (not_le.mp above)) (not_le.mpr h)

theorem totalExponent_congr {m n : ℕ} (hm : 0 < m) (hn : 0 < n) {e f : ℤ}
    (h : (m : ℚ) * 2 ^ e = n * 2 ^ f) : totalExponent m e = totalExponent n f := by
  apply le_antisymm
  · rw [totalExponent_le_iff hm, h]
    exact lt_of_totalExponent_le le_rfl
  · rw [totalExponent_le_iff hn, ← h]
    exact lt_of_totalExponent_le le_rfl

/-! ## Rounded mantissas -/

/-- A rounded mantissa has the exponent that its magnitude asks for. -/
theorem Rounded.targetExponent {s : Sign} {m : ℕ} {e : ℤ} {hm : 0 < m}
    (rounded : Rounded (.finite s m e hm)) :
    Format.binary64.targetExponent (totalExponent m e) = e := by
  obtain ⟨upper, least, normal⟩ := rounded
  rw [targetExponent_binary64]
  simp only [totalExponent]
  rcases normal with normal | rfl
  · rw [log2_eq_of_normal normal upper]
    omega
  · have := (Nat.log2_lt hm.ne').mpr upper
    omega

/-- Rounded mantissas of one magnitude are the same. -/
theorem Rounded.unique {s t : Sign} {m n : ℕ} {e f : ℤ} {hm : 0 < m} {hn : 0 < n}
    (first : Rounded (.finite s m e hm)) (second : Rounded (.finite t n f hn))
    (h : (m : ℚ) * 2 ^ e = n * 2 ^ f) : m = n ∧ e = f := by
  have exponents : e = f := by
    rw [← first.targetExponent, ← second.targetExponent, totalExponent_congr hm hn h]
  subst exponents
  have mantissas : (m : ℚ) = n := mul_right_cancel₀ (two_zpow_pos e).ne' h
  exact ⟨by exact_mod_cast mantissas, rfl⟩

/-- An exact result that a rounded mantissa can express is rounded to it, if it has enough bits. -/
theorem roundWithAccuracy_of_value (s : Sign) {M m : ℕ} {E e : ℤ} {hm : 0 < m}
    (rounded : Rounded (.finite s m e hm)) (h : (M : ℚ) * 2 ^ E = m * 2 ^ e) (le : E ≤ e) :
    roundWithAccuracy .binary64 s M E .exact = .finite s m e hm := by
  have mantissa : M = m * 2 ^ (e - E).toNat := by
    rw [← scaled_value m le] at h
    exact_mod_cast mul_right_cancel₀ (two_zpow_pos E).ne' h
  have exponent : E = e - ((e - E).toNat : ℤ) := by omega
  have fits := roundWithAccuracy_exact s hm rounded (e - E).toNat
  rwa [← mantissa, ← exponent] at fits

theorem round_of_value (s : Sign) {M m : ℕ} {E e : ℤ} {hm : 0 < m} (hM : 0 < M)
    (rounded : Rounded (.finite s m e hm)) (h : (M : ℚ) * 2 ^ E = m * 2 ^ e) :
    UnpackedFloat.round .binary64 s M E = .finite s m e hm := by
  have target : Format.binary64.targetExponent (totalExponent M E) = e := by
    rw [totalExponent_congr hM hm h, rounded.targetExponent]
  simp only [UnpackedFloat.round, target, decreaseExponent, Nat.shiftLeft_eq]
  apply roundWithAccuracy_of_value s rounded _ (by omega)
  rcases le_total e E with le | le
  · rw [show E - ((E - e).toNat : ℤ) = e by omega, scaled_value M le, h]
  · have none : (E - e).toNat = 0 := by omega
    simpa [none] using h

/-- A positive integer within `2 ^ 53` has a rounded mantissa. -/
theorem exists_rounded {k : ℕ} (hk : 0 < k) (bound : k ≤ 2 ^ 53) (s : Sign) :
    ∃ m e hm, Rounded (.finite s m e hm) ∧ e ≤ 971 ∧ (m : ℚ) * 2 ^ e = k := by
  rcases bound.lt_or_eq with small | rfl
  · have bits := (Nat.log2_lt hk.ne').mpr small
    have lower := Nat.mul_le_mul_right (2 ^ (52 - k.log2)) (Nat.log2_self_le hk.ne')
    have upper := Nat.mul_lt_mul_of_pos_right (Nat.lt_log2_self (n := k))
      (Nat.two_pow_pos (52 - k.log2))
    rw [← pow_add] at lower upper
    rw [show k.log2 + (52 - k.log2) = 52 by omega] at lower
    rw [show k.log2 + 1 + (52 - k.log2) = 53 by omega] at upper
    refine ⟨k * 2 ^ (52 - k.log2), (k.log2 : ℤ) - 52, by positivity, ⟨upper, by omega, .inl lower⟩,
      by omega, ?_⟩
    have scaled := scaled_value k (e := 0) (f := (k.log2 : ℤ) - 52) (by omega)
    rw [show (0 - ((k.log2 : ℤ) - 52)).toNat = 52 - k.log2 by omega] at scaled
    simpa using scaled
  · refine ⟨2 ^ 52, 1, by decide, ⟨by decide, by decide, .inl le_rfl⟩, by decide, ?_⟩
    norm_num

/-! ## Values determine doubles -/

@[simp] theorem apply_positive (k : ℤ) : Sign.positive.apply k = k := rfl

@[simp] theorem apply_negative (k : ℤ) : Sign.negative.apply k = -k := rfl

theorem mantissa_value_pos {m : ℕ} (hm : 0 < m) (e : ℤ) : (0 : ℚ) < m * 2 ^ e :=
  mul_pos (by exact_mod_cast hm) (two_zpow_pos e)

/-- The value of parts with a mantissa, by sign. -/
theorem apply_mul_zpow (s : Sign) (m : ℕ) (e : ℤ) :
    ((s.apply m : ℤ) : ℚ) * 2 ^ e = match s with
      | .positive => (m : ℚ) * 2 ^ e
      | .negative => -(m * 2 ^ e) := by
  cases s <;> simp

/-- Doubles of the same value are the same, unless one is a negative zero. -/
theorem eq_of_value {x y : Float} {v : ℚ} (hx : value x = some v) (hy : value y = some v)
    (px : x ≠ negZero) (py : y ≠ negZero) : x = y := by
  rw [ne_negZero_iff] at px py
  apply parts_injective
  rcases value_cases hx with ⟨s, zx, rfl⟩ | ⟨s, m, e, hm, fx, rfl⟩
  · rcases value_cases hy with ⟨t, zy, -⟩ | ⟨t, n, f, hn, fy, eq⟩
    · cases s <;> cases t <;> simp_all
    · have := mantissa_value_pos hn f
      rw [apply_mul_zpow] at eq
      cases t <;> linarith
  · have pos := mantissa_value_pos hm e
    rcases value_cases hy with ⟨t, zy, eq⟩ | ⟨t, n, f, hn, fy, eq⟩
    · rw [apply_mul_zpow] at eq
      cases s <;> linarith
    · have pos' := mantissa_value_pos hn f
      rw [apply_mul_zpow, apply_mul_zpow] at eq
      rw [fx, fy]
      cases s <;> cases t
      · obtain ⟨rfl, rfl⟩ := (rounded_of_parts fx).unique (rounded_of_parts fy) (neg_injective eq)
        rfl
      · linarith
      · linarith
      · obtain ⟨rfl, rfl⟩ := (rounded_of_parts fx).unique (rounded_of_parts fy) eq
        rfl

/-! ## Order -/

/-- A smaller exponent means a smaller magnitude, because rounded mantissas are as long as they
can be. -/
theorem Rounded.lt_of_exponent_lt {s t : Sign} {m n : ℕ} {e f : ℤ} {hm : 0 < m} {hn : 0 < n}
    (first : Rounded (.finite s m e hm)) (second : Rounded (.finite t n f hn)) (h : e < f) :
    (m : ℚ) * 2 ^ e < n * 2 ^ f := by
  have upper : (m : ℚ) < 2 ^ 53 := by exact_mod_cast first.1
  have lower : (2 : ℚ) ^ 52 ≤ n := by
    obtain ⟨-, least, -⟩ := first
    obtain ⟨-, -, normal⟩ := second
    exact_mod_cast normal.resolve_right (by omega)
  calc (m : ℚ) * 2 ^ e < 2 ^ 53 * 2 ^ e := mul_lt_mul_of_pos_right upper (two_zpow_pos e)
    _ = 2 ^ 52 * 2 ^ (e + 1) := by
      rw [zpow_add₀ (by norm_num)]
      ring
    _ ≤ 2 ^ 52 * 2 ^ f := by
      gcongr
      · norm_num
      · omega
    _ ≤ n * 2 ^ f := mul_le_mul_of_nonneg_right lower (two_zpow_pos f).le

theorem lt_def (x y : Float) : x < y ↔ (parts x).lt (parts y) = true := decide_eq_true_iff

theorem beq_def (x y : Float) : (x == y) = (parts x).beq (parts y) := rfl

theorem le_of_lt {x y : Float} (h : x < y) : x ≤ y := by
  rw [lt_def, UnpackedFloat.lt, beq_iff_eq] at h
  rw [le_def, UnpackedFloat.le, h]
  rfl

/-- Doubles in order are equal or in strict order. -/
theorem beq_or_lt_of_le {x y : Float} (h : x ≤ y) : (x == y) = true ∨ x < y := by
  rw [le_def, UnpackedFloat.le, Option.any_eq_true] at h
  obtain ⟨order, compared, le⟩ := h
  rw [lt_def, beq_def, UnpackedFloat.lt, UnpackedFloat.beq, compared]
  cases order with
  | lt => exact .inr rfl
  | eq => exact .inl rfl
  | gt => cases le

theorem compare_neg (a b : ℚ) : compare (-a) (-b) = (compare a b).swap := by
  rcases lt_trichotomy a b with lt | rfl | gt
  · rw [compare_lt_iff_lt.mpr lt, compare_gt_iff_gt.mpr (neg_lt_neg lt)]
    rfl
  · simp
  · rw [compare_gt_iff_gt.mpr gt, compare_lt_iff_lt.mpr (neg_lt_neg gt)]
    rfl

theorem Rounded.compare_eq {s t : Sign} {m n : ℕ} {e f : ℤ} {hm : 0 < m} {hn : 0 < n}
    (first : Rounded (.finite s m e hm)) (second : Rounded (.finite t n f hn)) :
    (compare e f).then (compare m n) = compare ((m : ℚ) * 2 ^ e) (n * 2 ^ f) := by
  rcases lt_trichotomy e f with lt | rfl | gt
  · rw [compare_lt_iff_lt.mpr lt, compare_lt_iff_lt.mpr (first.lt_of_exponent_lt second lt)]
    rfl
  · have pos := two_zpow_pos e
    rw [compare_eq_iff_eq.mpr rfl, Ordering.then]
    rcases lt_trichotomy m n with lt | rfl | gt
    · rw [compare_lt_iff_lt.mpr lt, compare_lt_iff_lt.mpr]
      gcongr
    · simp
    · rw [compare_gt_iff_gt.mpr gt, compare_gt_iff_gt.mpr]
      gcongr
  · rw [compare_gt_iff_gt.mpr gt, compare_gt_iff_gt.mpr (second.lt_of_exponent_lt first gt)]
    rfl

/-- Doubles compare as their values do. -/
theorem compare_parts {x y : Float} {v w : ℚ} (hx : value x = some v) (hy : value y = some w) :
    (parts x).compare (parts y) = some (compare v w) := by
  rcases value_cases hx with ⟨s, zx, rfl⟩ | ⟨s, m, e, hm, fx, rfl⟩
  · rcases value_cases hy with ⟨t, zy, rfl⟩ | ⟨t, n, f, hn, fy, rfl⟩
    · rw [zx, zy]
      rfl
    · have pos := mantissa_value_pos hn f
      rw [zx, fy, apply_mul_zpow]
      cases t with
      | positive => exact congrArg some (compare_lt_iff_lt.mpr pos).symm
      | negative => exact congrArg some (compare_gt_iff_gt.mpr (neg_lt_zero.mpr pos)).symm
  · have pos := mantissa_value_pos hm e
    rcases value_cases hy with ⟨t, zy, rfl⟩ | ⟨t, n, f, hn, fy, rfl⟩
    · rw [fx, zy, apply_mul_zpow]
      cases s with
      | positive => exact congrArg some (compare_gt_iff_gt.mpr pos).symm
      | negative => exact congrArg some (compare_lt_iff_lt.mpr (neg_lt_zero.mpr pos)).symm
    · have pos' := mantissa_value_pos hn f
      rw [fx, fy, apply_mul_zpow, apply_mul_zpow]
      cases s <;> cases t
      · have swapped := (rounded_of_parts fx).compare_eq (rounded_of_parts fy)
        exact congrArg some (by rw [swapped, compare_neg])
      · exact congrArg some (compare_lt_iff_lt.mpr (by linarith)).symm
      · exact congrArg some (compare_gt_iff_gt.mpr (by linarith)).symm
      · exact congrArg some ((rounded_of_parts fx).compare_eq (rounded_of_parts fy))

/-- A double that equals one with a value has this value. -/
theorem value_of_beq {x y : Float} (h : (x == y) = true) {v : ℚ} (hy : value y = some v) :
    value x = some v := by
  rw [beq_def, UnpackedFloat.beq, beq_iff_eq] at h
  cases finite : x.isFinite with
  | true =>
    obtain ⟨w, hx⟩ := exists_value finite
    rw [compare_parts hx hy, Option.some_inj, compare_eq_iff_eq] at h
    rw [hx, h]
  | false =>
    rw [isFinite_def] at finite
    rcases value_cases hy with ⟨t, py, -⟩ | ⟨t, n, f, hn, py, -⟩ <;> rw [py] at h <;>
      cases px : parts x with
      | infinity s => cases s <;> simp [px, UnpackedFloat.compare] at h
      | _ => simp_all [UnpackedFloat.isFinite, UnpackedFloat.compare]

theorem le_iff_value {x y : Float} {v w : ℚ} (hx : value x = some v) (hy : value y = some w) :
    x ≤ y ↔ v ≤ w := by
  rw [le_def, UnpackedFloat.le, compare_parts hx hy, Option.any_some]
  exact Std.LawfulBCmp.isLE_iff_le

end UpperConfidence.Double
