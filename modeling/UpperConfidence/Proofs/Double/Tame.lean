import UpperConfidence.Proofs.Double.Integer

/-!
# Results that are not infinite

How large a result of either sign can be is bounded in powers of two, where a
result that is not a number counts as bounded: no operation makes an infinity of
it. Each operation adds a little to the power, and as long as the power stays at
most 1024 the result is not infinite.
-/

namespace UpperConfidence.Double

open Float.Model Float.Model.UnpackedFloat

/-- Not a number, or a finite value of a magnitude below `2 ^ k`. -/
def Tame (k : ℕ) (x : Float) : Prop := x = nan ∨ ∃ v, value x = some v ∧ |v| < 2 ^ k

theorem tame_nan (k : ℕ) : Tame k nan := .inl rfl

theorem Tame.mono {j k : ℕ} {x : Float} (h : Tame j x) (le : j ≤ k) : Tame k x := by
  rcases h with lost | ⟨v, hx, bound⟩
  · exact .inl lost
  · exact .inr ⟨v, hx, bound.trans_le (pow_le_pow_right₀ (by norm_num) le)⟩

theorem Tame.ne_infinity {k : ℕ} {x : Float} (h : Tame k x) : x ≠ infinity := by
  rintro rfl
  rcases h with lost | ⟨v, hx, -⟩
  · exact absurd lost (by decide)
  · rw [value, parts_infinity] at hx
    cases hx

theorem Within.tame {k : ℕ} {x : Float} (h : Within k x) : Tame k x := by
  rcases h.cases with rfl | rfl | ⟨m, e, hm, px, total⟩
  · exact .inr ⟨0, value_zero, by simp⟩
  · exact .inr ⟨0, value_negZero, by simp⟩
  · refine .inr ⟨m * 2 ^ e, ?_, ?_⟩
    · rw [value, px]
      simp [partsValue]
    · rw [abs_of_pos (mantissa_value_pos hm e)]
      exact_mod_cast lt_of_totalExponent_le total

/-! ## Rounding -/

theorem tame_zero (k : ℕ) (s : Sign) : Tame k (ofParts (.zero s)) := by
  refine .inr ⟨0, ?_, by simp⟩
  rw [value, parts_ofParts (u := .zero s) trivial]
  rfl

theorem abs_apply (s : Sign) (m : ℕ) (e : ℤ) :
    |((s.apply m : ℤ) : ℚ) * 2 ^ e| = m * 2 ^ e := by
  have nonneg : (0 : ℚ) ≤ m * 2 ^ e := mul_nonneg (Nat.cast_nonneg m) (two_zpow_pos e).le
  rw [apply_mul_zpow]
  cases s <;> simp [abs_of_nonneg nonneg]

theorem tame_ofParts {k : ℕ} (hk : k ≤ 1024) {s : Sign} {m : ℕ} {e : ℤ} {hm : 0 < m}
    (rounded : Rounded (.finite s m e hm)) (total : totalExponent m e ≤ k) :
    Tame k (ofParts (.finite s m e hm)) := by
  have le := exponent_le_of_totalExponent_le rounded (total.trans (by omega))
  refine .inr ⟨_, value_ofParts rounded le, ?_⟩
  rw [abs_apply]
  exact_mod_cast lt_of_totalExponent_le total

theorem tame_round {k : ℕ} (hk : k + 1 ≤ 1024) (s : Sign) {m : ℕ} {e : ℤ} (hm : 0 < m)
    (he : -1074 ≤ e) (bound : (m : ℚ) * 2 ^ e < 2 ^ k) :
    Tame (k + 1) (ofParts (UnpackedFloat.round .binary64 s m e)) := by
  obtain ⟨m', e', hm', eq, rounded, -, atMost⟩ := round_cases s hm he
  have total : totalExponent m e ≤ k := (totalExponent_le_iff hm).mpr (by exact_mod_cast bound)
  rw [eq]
  exact tame_ofParts hk rounded (by omega)

/-- Rounding with a remainder. The whole part can be zero, and then it is a zero or the least
double that the remainder makes. -/
theorem tame_roundWithAccuracy {k : ℕ} (hk : k + 1 ≤ 1024) (s : Sign) {m : ℕ} {e : ℤ}
    (acc : Accuracy) (he : e ≤ Format.binary64.targetExponent (totalExponent m e))
    (bound : (m : ℚ) * 2 ^ e < 2 ^ k) :
    Tame (k + 1) (ofParts (roundWithAccuracy .binary64 s m e acc)) := by
  rcases Nat.eq_zero_or_pos m with rfl | hm
  · obtain ⟨r, hr⟩ : ∃ r, (ExtendedMantissa.ofMantissaAndAccuracy 0 acc >>>
      (-1074 - e).toNat).roundedMantissa = r := ⟨_, rfl⟩
    have atMost : r ≤ 1 := by
      have near := (roundedMantissa_near (ExtendedMantissa.ofMantissaAndAccuracy 0 acc >>>
        (-1074 - e).toNat)).2
      rwa [hr, mantissa_shiftRight, mantissa_ofMantissaAndAccuracy, Nat.zero_div] at near
    have target : Format.binary64.targetExponent (totalExponent 0 e) = -1074 := by
      rw [targetExponent_binary64] at he ⊢
      simp only [totalExponent, Nat.log2_zero] at he ⊢
      omega
    rw [roundWithAccuracy_eq_carry s acc target (by omega) hr (by omega), carry,
      if_neg (by omega)]
    rcases (by omega : r = 0 ∨ r = 1) with rfl | rfl
    · exact tame_zero _ s
    · refine tame_ofParts hk ⟨by decide, le_rfl, .inr rfl⟩ ?_
      simp only [totalExponent]
      rw [show Nat.log2 1 = 0 from rfl]
      omega
  · have total : totalExponent m e ≤ k := (totalExponent_le_iff hm).mpr (by exact_mod_cast bound)
    rcases roundWithAccuracy_cases s acc hm he with ⟨eq, -⟩ | ⟨m', e', hm', eq, rounded, -, atMost⟩
    · rw [eq]
      exact tame_zero _ s
    · rw [eq]
      exact tame_ofParts hk rounded (by omega)

theorem tame_normalize {k : ℕ} (hk : k + 1 ≤ 1024) {S e : ℤ} (he : -1074 ≤ e)
    (bound : |(S : ℚ) * 2 ^ e| < 2 ^ k) :
    Tame (k + 1) (ofParts (UnpackedFloat.normalize .binary64 S e .positive)) := by
  have magnitude : (S.natAbs : ℚ) * 2 ^ e < 2 ^ k := by
    rwa [abs_mul, abs_of_pos (two_zpow_pos e), ← Int.cast_abs, ← Nat.cast_natAbs] at bound
  unfold UnpackedFloat.normalize
  cases order : compare S 0 with
  | eq => exact tame_zero _ _
  | lt =>
    have negative := Int.compare_eq_lt.mp order
    rw [show S.natAbs = (-S).toNat by omega] at magnitude
    exact tame_round hk _ (by omega) he magnitude
  | gt =>
    have positive := Int.compare_eq_gt.mp order
    rw [show S.natAbs = S.toNat by omega] at magnitude
    exact tame_round hk _ (by omega) he magnitude

/-! ## Quotients -/

theorem log2_div_le {m n : ℕ} (hm : 0 < m) (hn : 0 < n) :
    m.log2 ≤ n.log2 + (m / n).log2 + 1 := by
  have product : m < 2 ^ (n.log2 + (m / n).log2 + 2) := by
    calc m < n * (m / n + 1) := Nat.lt_mul_div_succ m hn
      _ ≤ 2 ^ (n.log2 + 1) * 2 ^ ((m / n).log2 + 1) :=
        Nat.mul_le_mul Nat.lt_log2_self.le Nat.lt_log2_self
      _ = 2 ^ (n.log2 + (m / n).log2 + 2) := by
        rw [← pow_add]
        congr 1
        omega
  have := (Nat.log2_lt hm.ne').mpr product
  omega

/-- The whole part of an exact quotient is not above it, and has enough bits to round. -/
theorem divCore_spec {m n : ℕ} (hm : 0 < m) (hn : 0 < n) (e f : ℤ) :
    ∃ q u acc, divCore .binary64 m e n f = (q, u, acc) ∧
      u ≤ Format.binary64.targetExponent (totalExponent q u) ∧
      (q : ℚ) * 2 ^ u * (n * 2 ^ f) ≤ m * 2 ^ e := by
  obtain ⟨u, hu⟩ : ∃ u, min (e - f) (Format.binary64.targetExponent
    (totalExponent m e - totalExponent n f)) = u := ⟨_, rfl⟩
  obtain ⟨k, hk⟩ : ∃ k, (e - f - u).toNat = k := ⟨_, rfl⟩
  have shifted : (k : ℤ) = e - f - u := by
    have := min_le_left (e - f) (Format.binary64.targetExponent
      (totalExponent m e - totalExponent n f))
    omega
  have core : divCore .binary64 m e n f =
      (m * 2 ^ k / n, u, accuracyOfFraction (m * 2 ^ k % n) n) := by
    simp only [divCore, hu, hk, Nat.shiftLeft_eq]
  refine ⟨_, _, _, core, ?_, ?_⟩
  · have target : u ≤ Format.binary64.targetExponent (totalExponent m e - totalExponent n f) :=
      hu ▸ min_le_right _ _
    rw [targetExponent_binary64] at target ⊢
    have bits := log2_mul_two_pow hm k
    simp only [totalExponent] at target ⊢
    rcases Nat.lt_or_ge (m * 2 ^ k) n with small | large
    · -- the whole part is zero, so the exponent is the least one
      have none : m * 2 ^ k / n = 0 := Nat.div_eq_of_lt small
      have := log2_mono small.le
      rw [none, Nat.log2_zero]
      omega
    · have := log2_div_le (m := m * 2 ^ k) (by positivity) hn
      omega
  · have floor : ((m * 2 ^ k / n * n : ℕ) : ℚ) ≤ (m * 2 ^ k : ℕ) := by
      exact_mod_cast Nat.div_mul_le_self (m * 2 ^ k) n
    have scale : (0 : ℚ) < 2 ^ (u + f) := two_zpow_pos _
    calc ((m * 2 ^ k / n : ℕ) : ℚ) * 2 ^ u * (n * 2 ^ f)
        = (m * 2 ^ k / n * n : ℕ) * 2 ^ (u + f) := by
          rw [zpow_add₀ (by norm_num)]
          push_cast
          ring
      _ ≤ (m * 2 ^ k : ℕ) * 2 ^ (u + f) := by gcongr
      _ = m * 2 ^ e := by
          have exact := scaled_value m (e := e) (f := u + f) (by omega)
          rwa [show (e - (u + f)).toNat = k by omega] at exact

/-! ## Negation -/

theorem parts_neg (x : Float) : parts (-x) = (parts x).neg := by
  have regular := regular_parts x
  apply parts_ofParts (u := (parts x).neg)
  cases px : parts x with
  | finite s m e hm =>
    rw [px] at regular
    exact regular
  | _ => trivial

theorem apply_neg (s : Sign) (k : ℤ) : (-s).apply k = -s.apply k := by
  cases s
  · exact (neg_neg k).symm
  · rfl

theorem sub_eq_add_neg (x y : Float) : x - y = x + -y := by
  rw [sub_def, add_def, parts_neg]
  congr 1
  cases parts x with
  | finite s m e hm =>
    cases parts y with
    | finite t n f hn =>
      simp only [UnpackedFloat.sub, UnpackedFloat.add, UnpackedFloat.neg, apply_neg]
      rfl
    | _ => rfl
  | _ => cases parts y <;> rfl

theorem value_neg {x : Float} {v : ℚ} (h : value x = some v) : value (-x) = some (-v) := by
  rw [value, parts_neg]
  rcases value_cases h with ⟨s, px, rfl⟩ | ⟨s, m, e, hm, px, rfl⟩
  · rw [px]
    simp [UnpackedFloat.neg, partsValue]
  · rw [px]
    simp [UnpackedFloat.neg, partsValue, apply_neg]

/-! ## Operations -/

section Operations

variable {j k : ℕ} {x y : Float}

theorem tame_add (hk : k + 2 ≤ 1024) (hx : Tame k x) (hy : Tame k y) : Tame (k + 2) (x + y) := by
  rcases hx with rfl | ⟨v, hx, bx⟩
  · simp [tame_nan]
  rcases hy with rfl | ⟨w, hy, b_y⟩
  · simp [tame_nan]
  rcases value_cases hx with ⟨s, -, rfl⟩ | ⟨s, m, e, hm, px, rfl⟩
  · refine Tame.mono (.inr ⟨w, ?_, b_y⟩) (by omega)
    rw [(value_add_zero y hx).1, hy]
  rcases value_cases hy with ⟨t, -, rfl⟩ | ⟨t, n, f, hn, py, rfl⟩
  · refine Tame.mono (.inr ⟨_, ?_, bx⟩) (by omega)
    rw [(value_add_zero x hy).2, hx]
  obtain ⟨S, sum, exact⟩ := add_eq_normalize px py
  rw [sum]
  apply tame_normalize hk (le_min (least_le_exponent px) (least_le_exponent py))
  rw [exact, pow_succ]
  exact (abs_add_le _ _).trans_lt (by linarith)

theorem Tame.neg (hx : Tame k x) : Tame k (-x) := by
  rcases hx with rfl | ⟨v, hx, bound⟩
  · exact .inl (by decide)
  · exact .inr ⟨-v, value_neg hx, by rwa [abs_neg]⟩

theorem tame_sub (hk : k + 2 ≤ 1024) (hx : Tame k x) (hy : Tame k y) : Tame (k + 2) (x - y) := by
  rw [sub_eq_add_neg]
  exact tame_add hk hx hy.neg

theorem tame_mul (hk : j + k + 1 ≤ 1024) (hx : Tame j x) (hy : Tame k y) :
    Tame (j + k + 1) (x * y) := by
  rcases hx with rfl | ⟨v, hx, bx⟩
  · simp [tame_nan]
  rcases hy with rfl | ⟨w, hy, b_y⟩
  · simp [tame_nan]
  rw [mul_def]
  rcases value_cases hx with ⟨s, px, rfl⟩ | ⟨s, m, e, hm, px, rfl⟩
  · rcases value_cases hy with ⟨t, py, rfl⟩ | ⟨t, n, f, hn, py, rfl⟩ <;>
      · rw [px, py]
        exact tame_zero _ _
  · rcases value_cases hy with ⟨t, py, rfl⟩ | ⟨t, n, f, hn, py, rfl⟩
    · rw [px, py]
      exact tame_zero _ _
    · have bound : ((m * n : ℕ) : ℚ) * 2 ^ (e + f) < 2 ^ (j + k) := by
        rw [abs_apply] at bx b_y
        have product := mul_lt_mul'' bx b_y (mantissa_value_pos hm e).le
          (mantissa_value_pos hn f).le
        rw [pow_add, zpow_add₀ (by norm_num), Nat.cast_mul]
        linarith
      rw [px, py]
      exact tame_roundWithAccuracy hk _ .exact (mul_exponent_le px py) bound

/-- A value over a number that is at least one is hardly larger than the value. -/
theorem tame_div (hk : k + 1 ≤ 1024) (hx : Tame k x) {w : ℚ} (hy : value y = some w)
    (one : 1 ≤ w) : Tame (k + 1) (x / y) := by
  rcases hx with rfl | ⟨v, hx, bound⟩
  · simp [tame_nan]
  rw [div_def]
  rcases value_cases hy with ⟨t, -, rfl⟩ | ⟨t, n, f, hn, py, rfl⟩
  · norm_num at one
  rcases value_cases hx with ⟨s, px, rfl⟩ | ⟨s, m, e, hm, px, rfl⟩
  · rw [px, py]
    exact tame_zero _ _
  · obtain ⟨q, u, acc, core, exponent, le⟩ := divCore_spec hm hn e f
    have divisor : (1 : ℚ) ≤ n * 2 ^ f := by
      have := le_abs_self ((t.apply n : ℤ) * (2 : ℚ) ^ f)
      rw [abs_apply] at this
      exact one.trans this
    rw [abs_apply] at bound
    have quotient : (q : ℚ) * 2 ^ u < 2 ^ k := by
      have nonneg : (0 : ℚ) ≤ q * 2 ^ u := mul_nonneg (Nat.cast_nonneg q) (two_zpow_pos u).le
      calc (q : ℚ) * 2 ^ u ≤ q * 2 ^ u * (n * 2 ^ f) := le_mul_of_one_le_right nonneg divisor
        _ ≤ m * 2 ^ e := le
        _ < 2 ^ k := bound
    rw [px, py]
    simp only [UnpackedFloat.div, core]
    exact tame_roundWithAccuracy hk _ acc exponent quotient

theorem tame_sqrt (hk : (k + 1) / 2 + 1 ≤ 1024) (hx : Tame k x) : Tame ((k + 1) / 2 + 1) x.sqrt := by
  rcases hx with rfl | ⟨v, hx, bound⟩
  · rw [sqrt_nan]
    exact tame_nan _
  rw [sqrt_def]
  rcases value_cases hx with ⟨s, px, rfl⟩ | ⟨s, m, e, hm, px, rfl⟩
  · rw [px]
    exact tame_zero _ s
  · cases s with
    | negative =>
      rw [px]
      exact .inl rfl
    | positive =>
      obtain ⟨r, t, acc, core, hr, exponent, half⟩ := sqrtCore_spec hm e
      have total : totalExponent m e ≤ k := by
        rw [abs_apply] at bound
        exact (totalExponent_le_iff hm).mpr (by exact_mod_cast bound)
      have root : (r : ℚ) * 2 ^ t < 2 ^ ((k + 1) / 2) := by
        exact_mod_cast lt_of_totalExponent_le (k := ((k + 1) / 2 : ℕ)) (by omega)
      rw [px]
      simp only [UnpackedFloat.sqrt, core]
      exact tame_roundWithAccuracy hk _ acc exponent root

end Operations

end UpperConfidence.Double
