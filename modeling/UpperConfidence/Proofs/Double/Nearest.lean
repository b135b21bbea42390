import UpperConfidence.Proofs.Double.Order

/-!
# Correct rounding

A sum, a difference, a product, a quotient or a root is the double that the exact
result is rounded to. So it keeps its place among all doubles: what is at most the
exact result is at most the rounded one, and what is at least the exact result is at
least the rounded one. And it is off by at most half a unit in the last place.
-/

namespace UpperConfidence.Double

open Float.Model Float.Model.UnpackedFloat

/-! ## Mantissas with further bits -/

/-- The number `x` has the whole part `m`, and its fraction is where `acc` says. -/
def Accurate (m : ℕ) (acc : Accuracy) (x : ℝ) : Prop :=
  match acc with
  | .exact => x = m
  | .inexact .lt => m < x ∧ x < m + 1 / 2
  | .inexact .eq => x = m + 1 / 2
  | .inexact .gt => m + 1 / 2 < x ∧ x < m + 1

section Accurate

variable {m : ℕ} {acc : Accuracy} {x : ℝ}

theorem Accurate.le_lt (h : Accurate m acc x) : m ≤ x ∧ x < m + 1 := by
  rcases acc with _ | ⟨_ | _ | _⟩ <;> simp only [Accurate] at h <;> constructor <;> linarith

/-- Rounding to the nearest integer is off by at most one half. -/
theorem Accurate.abs_sub_le (h : Accurate m acc x) :
    |(Accuracy.roundToNearestEven m acc : ℝ) - x| ≤ 1 / 2 := by
  rw [abs_le]
  rcases acc with _ | ⟨_ | _ | _⟩ <;> simp only [Accurate, Accuracy.roundToNearestEven] at h ⊢
  · constructor <;> linarith
  · constructor <;> linarith
  · have parity : ((m % 2 : ℕ) : ℝ) = 0 ∨ ((m % 2 : ℕ) : ℝ) = 1 := by
      rcases Nat.mod_two_eq_zero_or_one m with even | odd
      · exact .inl (by rw [even, Nat.cast_zero])
      · exact .inr (by rw [odd, Nat.cast_one])
    push_cast at parity ⊢
    rcases parity with even | odd <;> constructor <;> linarith
  · push_cast
    constructor <;> linarith

theorem accuracy_ofMantissaAndAccuracy (m : ℕ) (acc : Accuracy) :
    (ExtendedMantissa.ofMantissaAndAccuracy m acc).accuracy = acc := by
  rcases acc with _ | ⟨_ | _ | _⟩ <;> rfl

/-- The bit that is shifted out becomes the first one of the fraction. -/
theorem accurate_shiftRightOne {em : ExtendedMantissa} (h : Accurate em.mantissa em.accuracy x) :
    Accurate em.shiftRightOne.mantissa em.shiftRightOne.accuracy (x / 2) := by
  obtain ⟨m, round, sticky⟩ := em
  have split : (m : ℝ) = 2 * (m / 2 : ℕ) + (m % 2 : ℕ) := by
    exact_mod_cast (Nat.div_add_mod m 2).symm
  have even : ((0 : ℕ) != 0) = false := rfl
  have odd : ((1 : ℕ) != 0) = true := rfl
  rcases Nat.mod_two_eq_zero_or_one m with bit | bit <;> rw [bit] at split <;>
    push_cast at split <;> cases round <;> cases sticky <;>
    simp only [Accurate, ExtendedMantissa.accuracy, ExtendedMantissa.shiftRightOne, bit, even, odd,
      Bool.or_self, Bool.or_true, Bool.true_or] at h ⊢ <;>
    first | linarith | constructor <;> linarith

theorem accurate_shiftRight (h : Accurate m acc x) (k : ℕ) :
    Accurate (ExtendedMantissa.ofMantissaAndAccuracy m acc >>> k).mantissa
      (ExtendedMantissa.ofMantissaAndAccuracy m acc >>> k).accuracy (x / 2 ^ k) := by
  induction k with
  | zero =>
    simpa [accuracy_ofMantissaAndAccuracy] using h
  | succ k ih =>
    rw [pow_succ, ← div_div]
    exact accurate_shiftRightOne ih

end Accurate

/-! ## Multiples of a unit -/

/-- The mantissa `r` is nearest to `v` among the multiples of the unit `2 ^ t`, which is as small
as the size of `v` allows. -/
structure Nearest (v : ℝ) (r : ℕ) (t : ℤ) : Prop where
  least : -1074 ≤ t
  upper : r ≤ 2 ^ 53
  error : |r * (2 : ℝ) ^ t - v| ≤ 2 ^ t / 2
  normal : t = -1074 ∨ 2 ^ 52 * (2 : ℝ) ^ t ≤ v

theorem real_two_zpow_pos (e : ℤ) : (0 : ℝ) < 2 ^ e := zpow_pos (by norm_num) e

/-- Rounding goes to the nearest multiple of the unit. -/
theorem exists_nearest (s : Sign) {M : ℕ} {E : ℤ} {acc : Accuracy} {x : ℝ} (h : Accurate M acc x)
    (he : E ≤ Format.binary64.targetExponent (totalExponent M E)) :
    ∃ r t, roundWithAccuracy .binary64 s M E acc = carry s r t ∧ Nearest (x * 2 ^ E) r t := by
  obtain ⟨t, ht⟩ : ∃ t, Format.binary64.targetExponent (totalExponent M E) = t := ⟨_, rfl⟩
  rw [ht] at he
  obtain ⟨k, rfl⟩ : ∃ k : ℕ, E = t - k := ⟨(t - E).toNat, by omega⟩
  have amount : (t - (t - (k : ℤ))).toNat = k := by omega
  obtain ⟨r, hr⟩ : ∃ r, (ExtendedMantissa.ofMantissaAndAccuracy M acc >>> k).roundedMantissa = r :=
    ⟨_, rfl⟩
  have scaled : x * 2 ^ (t - (k : ℤ)) = x / 2 ^ k * 2 ^ t := by
    rw [zpow_sub₀ (by norm_num), zpow_natCast]
    ring
  have size : M.log2 + 1 ≤ 53 + k := by
    rw [targetExponent_binary64] at ht
    simp only [totalExponent] at ht
    omega
  have whole : M / 2 ^ k < 2 ^ 53 := by
    rw [Nat.div_lt_iff_lt_mul (by positivity), ← pow_add]
    exact Nat.lt_log2_self.trans_le (Nat.pow_le_pow_right (by decide) size)
  have upper : r ≤ 2 ^ 53 := by
    have near := (roundedMantissa_near (ExtendedMantissa.ofMantissaAndAccuracy M acc >>> k)).2
    rw [hr, mantissa_shiftRight, mantissa_ofMantissaAndAccuracy] at near
    omega
  have error : |(r : ℝ) - x / 2 ^ k| ≤ 1 / 2 := by
    rw [← hr]
    exact (accurate_shiftRight h k).abs_sub_le
  refine ⟨r, t, roundWithAccuracy_eq_carry s acc ht he (by rw [amount]; exact hr) upper, ?_, upper,
    ?_, ?_⟩
  · rw [← ht, targetExponent_binary64]
    omega
  · rw [scaled, ← sub_mul, abs_mul, abs_of_pos (real_two_zpow_pos t)]
    have half := mul_le_mul_of_nonneg_right error (real_two_zpow_pos t).le
    linarith
  · by_cases small : t = -1074
    · exact .inl small
    · right
      have bits : M.log2 = 52 + k := by
        rw [targetExponent_binary64] at ht
        simp only [totalExponent] at ht
        omega
      have large : 2 ^ 52 * (2 : ℝ) ^ k ≤ M := by
        have nonzero : M ≠ 0 := by
          rintro rfl
          rw [Nat.log2_zero] at bits
          omega
        rw [← pow_add, ← bits]
        exact_mod_cast Nat.log2_self_le nonzero
      rw [scaled]
      gcongr
      rw [le_div_iff₀ (by positivity)]
      exact large.trans h.le_lt.1

/-- A double is a multiple of the unit, or it is smaller than the mantissas of 53 bits. -/
theorem grid {y : Float} {w : ℚ} (hy : value y = some w) {t : ℤ} (ht : -1074 ≤ t) :
    (∃ k : ℤ, (w : ℝ) = k * 2 ^ t) ∨ -1074 < t ∧ |(w : ℝ)| < 2 ^ 52 * 2 ^ t := by
  rcases value_cases hy with ⟨s, -, rfl⟩ | ⟨s, n, f, hn, py, rfl⟩
  · exact .inl ⟨0, by simp⟩
  · rcases le_or_gt t f with le | gt
    · left
      refine ⟨s.apply n * 2 ^ (f - t).toNat, ?_⟩
      have exponent : f = ((f - t).toNat : ℤ) + t := by omega
      push_cast
      conv_lhs => rw [exponent, zpow_add₀ (by norm_num), zpow_natCast]
      ring
    · right
      obtain ⟨upper, least, -⟩ := rounded_of_parts py
      refine ⟨by omega, ?_⟩
      have bound : (n : ℝ) < 2 ^ 53 := by exact_mod_cast upper
      rw [← Rat.cast_abs, abs_apply]
      push_cast
      calc (n : ℝ) * 2 ^ f < 2 ^ 53 * 2 ^ f := by
            gcongr
        _ = 2 ^ 52 * 2 ^ (f + 1) := by
            rw [zpow_add₀ (by norm_num)]
            ring
        _ ≤ 2 ^ 52 * 2 ^ t := by
            gcongr
            · norm_num
            · omega

theorem abs_value_lt {y : Float} {w : ℚ} (hy : value y = some w) : |(w : ℝ)| < 2 ^ 1024 := by
  rcases value_cases hy with ⟨s, -, rfl⟩ | ⟨s, n, f, hn, py, rfl⟩
  · simp
  · have regular := regular_parts y
    rw [py] at regular
    have bound : (n : ℝ) < 2 ^ 53 := by exact_mod_cast regular.1.1
    rw [← Rat.cast_abs, abs_apply]
    push_cast
    calc (n : ℝ) * 2 ^ f < 2 ^ 53 * 2 ^ f := by gcongr
      _ ≤ 2 ^ 53 * 2 ^ (971 : ℤ) := by
        gcongr
        · norm_num
        · exact regular.2
      _ = 2 ^ 1024 := by rw [zpow_ofNat, ← pow_add]

namespace Nearest

variable {v : ℝ} {r : ℕ} {t : ℤ} (h : Nearest v r t) {y : Float} {w : ℚ}
include h

theorem sub_le : v - 2 ^ t / 2 ≤ r * 2 ^ t ∧ r * 2 ^ t ≤ v + 2 ^ t / 2 := by
  have := abs_le.mp h.error
  constructor <;> linarith

theorem le_mantissa (normal : t ≠ -1074) : 2 ^ 52 ≤ r := by
  have large := h.normal.resolve_left normal
  by_contra small
  have less : (r : ℝ) + 1 ≤ 2 ^ 52 := by exact_mod_cast not_le.mp small
  have := h.sub_le.1
  have := mul_le_mul_of_nonneg_right less (real_two_zpow_pos t).le
  have := real_two_zpow_pos t
  linarith

/-- A double that is not greater than the exact result is not greater than the rounded one. -/
theorem value_le (hy : value y = some w) (le : w ≤ v) : (w : ℝ) ≤ r * 2 ^ t := by
  have pos := real_two_zpow_pos t
  rcases grid hy h.least with ⟨k, eq⟩ | ⟨above, small⟩
  · rw [eq] at le ⊢
    have near := h.sub_le.1
    have less : (k : ℝ) < r + 1 := by
      rw [← mul_lt_mul_iff_left₀ pos]
      linarith
    have integer : k ≤ r := by
      have : k < r + 1 := by exact_mod_cast less
      omega
    have : (k : ℝ) ≤ r := by exact_mod_cast integer
    gcongr
  · have mantissa : (2 ^ 52 : ℝ) ≤ r := by exact_mod_cast h.le_mantissa (by omega)
    calc (w : ℝ) ≤ |(w : ℝ)| := le_abs_self _
      _ ≤ 2 ^ 52 * 2 ^ t := small.le
      _ ≤ r * 2 ^ t := by gcongr

/-- A double that is not less than the exact result is not less than the rounded one. -/
theorem le_value (hy : value y = some w) (le : v ≤ w) : (r : ℝ) * 2 ^ t ≤ w := by
  have pos := real_two_zpow_pos t
  rcases grid hy h.least with ⟨k, eq⟩ | ⟨above, small⟩
  · rw [eq] at le ⊢
    have near := h.sub_le.2
    have less : (r : ℝ) < k + 1 := by
      rw [← mul_lt_mul_iff_left₀ pos]
      linarith
    have integer : (r : ℤ) ≤ k := by
      have : (r : ℤ) < k + 1 := by exact_mod_cast less
      omega
    have : (r : ℝ) ≤ k := by exact_mod_cast integer
    gcongr
  · have large := h.normal.resolve_left (by omega)
    exact absurd (le_abs_self (w : ℝ)) (by linarith)

/-- The rounded result, with a carry if there is one, is a double or too large for one. -/
theorem carry_cases : (∃ z, value (ofParts (carry .positive r t)) = some z ∧ (z : ℝ) = r * 2 ^ t) ∨
    ofParts (carry .positive r t) = infinity ∧ 2 ^ 1024 ≤ r * (2 : ℝ) ^ t := by
  have finish {m : ℕ} {e : ℤ} (hm : 0 < m) (rounded : Rounded (.finite .positive m e hm))
      (same : (m : ℝ) * 2 ^ e = r * 2 ^ t) (top : 971 < e → 2 ^ 52 ≤ m) :
      (∃ z, value (ofParts (.finite .positive m e hm)) = some z ∧ (z : ℝ) = r * 2 ^ t) ∨
        ofParts (.finite .positive m e hm) = infinity ∧ 2 ^ 1024 ≤ r * (2 : ℝ) ^ t := by
    rcases le_or_gt e 971 with fits | large
    · refine .inl ⟨_, value_ofParts rounded fits, ?_⟩
      rw [← same]
      push_cast
      rfl
    · right
      constructor
      · apply parts_injective
        rw [parts_ofParts_of_rounded rounded, if_neg (not_le.mpr large), parts_infinity]
      · have mantissa : (2 ^ 52 : ℝ) ≤ m := by exact_mod_cast top large
        calc (2 : ℝ) ^ 1024 = 2 ^ 52 * 2 ^ (972 : ℤ) := by rw [zpow_ofNat, ← pow_add]
          _ ≤ 2 ^ 52 * 2 ^ e := by
            gcongr
            · norm_num
            · omega
          _ ≤ m * 2 ^ e := by gcongr
          _ = r * 2 ^ t := same
  have least := h.least
  unfold carry
  split
  · rename_i full
    rw [ofMantissa_of_pos (by decide)]
    refine finish _ ⟨by decide, by omega, .inl le_rfl⟩ ?_ fun _ => le_rfl
    rw [full, zpow_add₀ (by norm_num)]
    push_cast
    ring
  · rcases Nat.eq_zero_or_pos r with rfl | pos
    · refine .inl ⟨0, ?_, by simp⟩
      rw [ofMantissa, dif_pos rfl, value, parts_ofParts (u := .zero .positive) trivial]
      rfl
    · rw [ofMantissa_of_pos pos]
      have upper := h.upper
      refine finish pos ⟨by omega, least, ?_⟩ rfl fun large => h.le_mantissa (by omega)
      by_cases normal : t = -1074
      · exact .inr normal
      · exact .inl (h.le_mantissa normal)

end Nearest

/-! ## Rounded results -/

/-- Half of the least positive double. -/
noncomputable def halfLeast : ℝ := 2 ^ (-1075 : ℤ)

theorem halfLeast_pos : 0 < halfLeast := real_two_zpow_pos _

/-- The double `x` is what the exact result `v` is rounded to. -/
structure Rounds (v : ℝ) (x : Float) : Prop where
  low : ∀ y w, value y = some w → w ≤ v → y ≤ x
  high : ∀ y w, value y = some w → v ≤ w → x ≤ y
  near : ∀ z, value x = some z → |z - v| ≤ |v| / 2 ^ 53 + halfLeast

theorem Nearest.rounds {v : ℝ} {r : ℕ} {t : ℤ} (h : Nearest v r t) (nonneg : 0 ≤ v) :
    Rounds v (ofParts (carry .positive r t)) := by
  rcases h.carry_cases with ⟨z, hz, same⟩ | ⟨infinite, large⟩
  · refine ⟨fun y w hy le => ?_, fun y w hy le => ?_, fun z' hz' => ?_⟩
    · rw [le_iff_value hy hz]
      exact_mod_cast (h.value_le hy le).trans_eq same.symm
    · rw [le_iff_value hz hy]
      exact_mod_cast same.le.trans (h.le_value hy le)
    · obtain rfl := Option.some_inj.mp (hz.symm.trans hz')
      rw [same, abs_of_nonneg nonneg]
      refine h.error.trans ?_
      rcases h.normal with rfl | normal
      · have : (0 : ℝ) ≤ v / 2 ^ 53 := by positivity
        have unit : (2 : ℝ) ^ (-1074 : ℤ) / 2 = halfLeast := by
          rw [halfLeast, div_eq_mul_inv, ← zpow_sub_one₀ two_ne_zero]
          rfl
        linarith
      · have := halfLeast_pos
        have := div_le_div_of_nonneg_right normal (by norm_num : (0 : ℝ) ≤ 2 ^ 53)
        linarith
  · rw [infinite]
    refine ⟨fun y w hy _ => le_infinity (isNaN_of_value hy), fun y w hy le => ?_, fun z hz => ?_⟩
    · have bound := (le_abs_self (w : ℝ)).trans_lt (abs_value_lt hy)
      exact absurd bound (not_lt.mpr (large.trans (h.le_value hy le)))
    · rw [value, parts_infinity] at hz
      cases hz

namespace Rounds

variable {v : ℝ} {x y : Float} {w : ℚ} (h : Rounds v x)
include h

theorem number : x.isNaN = false := by
  rcases le_total 0 v with nonneg | nonpos
  · exact (numbers_of_le (h.low 0 0 value_zero (by simpa using nonneg))).2
  · exact (numbers_of_le (h.high 0 0 value_zero (by simpa using nonpos))).1

theorem nonneg (hv : 0 ≤ v) : 0 ≤ x := h.low 0 0 value_zero (by simpa using hv)

/-- A result within the range of the doubles is finite. -/
theorem exists_value (hy : value y = some w) (bound : |v| ≤ w) :
    ∃ z, value x = some z ∧ |z| ≤ w := by
  obtain ⟨lower, upper⟩ := abs_le.mp bound
  have below := h.low (-y) (-w) (value_neg hy) (by push_cast; exact lower)
  obtain ⟨z, hz, low, high⟩ :=
    exists_value_of_le (value_neg hy) hy below (h.high y w hy upper)
  exact ⟨z, hz, abs_le.mpr ⟨low, high⟩⟩

theorem neg : Rounds (-v) (-x) where
  low y w hy le := by
    have above := h.high (-y) (-w) (value_neg hy) (by push_cast; linarith)
    rwa [← neg_le_neg_iff, neg_neg_self] at above
  high y w hy le := by
    have below := h.low (-y) (-w) (value_neg hy) (by push_cast; linarith)
    rwa [← neg_le_neg_iff, neg_neg_self] at below
  near z hz := by
    have hx := value_neg hz
    rw [neg_neg_self] at hx
    have error := h.near (-z) hx
    push_cast at error
    rw [← abs_neg, abs_neg v]
    convert error using 2
    ring

end Rounds

theorem rounds_of_value {x : Float} {v : ℚ} (h : value x = some v) : Rounds v x where
  low y w hy le := (le_iff_value hy h).mpr (by exact_mod_cast le)
  high y w hy le := (le_iff_value h hy).mpr (by exact_mod_cast le)
  near z hz := by
    obtain rfl := Option.some_inj.mp (h.symm.trans hz)
    have := halfLeast_pos
    rw [sub_self, abs_zero]
    positivity

/-- A magnitude with a sign. -/
def signed : Sign → ℝ → ℝ
  | .positive, v => v
  | .negative, v => -v

theorem cast_apply (s : Sign) (m : ℕ) (e : ℤ) :
    ((((s.apply m : ℤ) : ℚ) * 2 ^ e : ℚ) : ℝ) = signed s (m * 2 ^ e) := by
  cases s <;> simp [signed]

theorem ofParts_neg {u : UnpackedFloat} (rounded : Rounded u) : ofParts u.neg = -ofParts u := by
  apply parts_injective
  rw [parts_neg]
  cases u with
  | finite s m e hm =>
    have rounded' : Rounded (.finite (-s) m e hm) := rounded
    rw [parts_ofParts_of_rounded rounded, UnpackedFloat.neg, parts_ofParts_of_rounded rounded']
    split <;> rfl
  | notANumber => rfl
  | _ s =>
    rw [parts_ofParts (by trivial), parts_ofParts (by trivial)]

theorem Nearest.rounded_carry {v : ℝ} {r : ℕ} {t : ℤ} (h : Nearest v r t) (s : Sign) :
    Rounded (carry s r t) := by
  have least := h.least
  have upper := h.upper
  unfold carry
  split
  · rw [ofMantissa_of_pos (by decide)]
    exact ⟨by decide, by omega, .inl le_rfl⟩
  · rcases Nat.eq_zero_or_pos r with rfl | pos
    · trivial
    · rw [ofMantissa_of_pos pos]
      refine ⟨by omega, least, ?_⟩
      by_cases normal : t = -1074
      · exact .inr normal
      · exact .inl (h.le_mantissa normal)

theorem rounds_roundWithAccuracy (s : Sign) {M : ℕ} {E : ℤ} {acc : Accuracy} {x : ℝ}
    (h : Accurate M acc x) (he : E ≤ Format.binary64.targetExponent (totalExponent M E)) :
    Rounds (signed s (x * 2 ^ E)) (ofParts (roundWithAccuracy .binary64 s M E acc)) := by
  have nonneg : 0 ≤ x * 2 ^ E :=
    mul_nonneg ((Nat.cast_nonneg M).trans h.le_lt.1) (real_two_zpow_pos E).le
  obtain ⟨r, t, eq, nearest⟩ := exists_nearest s h he
  have positive := nearest.rounds nonneg
  rw [eq]
  cases s with
  | positive => exact positive
  | negative =>
    have flipped : carry .negative r t = (carry .positive r t).neg := by
      unfold carry ofMantissa
      split <;> split <;> rfl
    rw [flipped, ofParts_neg (nearest.rounded_carry .positive)]
    exact positive.neg

theorem rounds_round (s : Sign) {M : ℕ} (hM : 0 < M) (E : ℤ) :
    Rounds (signed s (M * 2 ^ E)) (ofParts (UnpackedFloat.round .binary64 s M E)) := by
  obtain ⟨k, hk⟩ : ∃ k, (E - Format.binary64.targetExponent (totalExponent M E)).toNat = k :=
    ⟨_, rfl⟩
  have unfolded : UnpackedFloat.round .binary64 s M E =
      roundWithAccuracy .binary64 s (M * 2 ^ k) (E - k) .exact := by
    simp only [UnpackedFloat.round, decreaseExponent, hk, Nat.shiftLeft_eq]
  have exact : Accurate (M * 2 ^ k) .exact ((M * 2 ^ k : ℕ) : ℝ) := rfl
  have same : ((M * 2 ^ k : ℕ) : ℝ) * 2 ^ (E - (k : ℤ)) = M * 2 ^ E := by
    rw [zpow_sub₀ two_ne_zero, zpow_natCast]
    push_cast
    field_simp
  rw [unfolded, ← same]
  refine rounds_roundWithAccuracy s exact ?_
  rw [totalExponent_shiftLeft hM]
  omega

theorem rounds_normalize (S E : ℤ) :
    Rounds (S * 2 ^ E) (ofParts (UnpackedFloat.normalize .binary64 S E .positive)) := by
  unfold UnpackedFloat.normalize
  cases order : compare S 0 with
  | lt =>
    have negative := Int.compare_eq_lt.mp order
    have rounds := rounds_round .negative (M := (-S).toNat) (by omega) E
    have magnitude : (((-S).toNat : ℕ) : ℝ) = -S := by
      have integer : (((-S).toNat : ℕ) : ℤ) = -S := by omega
      exact_mod_cast congrArg (Int.cast (R := ℝ)) integer
    rwa [signed, magnitude, neg_mul, neg_neg] at rounds
  | eq =>
    obtain rfl : S = 0 := Int.compare_eq_eq.mp order
    have zero := rounds_of_value value_zero
    rw [Rat.cast_zero] at zero
    rw [Int.cast_zero, zero_mul]
    exact zero
  | gt =>
    have positive := Int.compare_eq_gt.mp order
    have rounds := rounds_round .positive (M := S.toNat) (by omega) E
    have magnitude : ((S.toNat : ℕ) : ℝ) = S := by
      have integer : ((S.toNat : ℕ) : ℤ) = S := by omega
      exact_mod_cast congrArg (Int.cast (R := ℝ)) integer
    rwa [signed, magnitude] at rounds

end UpperConfidence.Double
