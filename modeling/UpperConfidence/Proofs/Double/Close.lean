import UpperConfidence.Proofs.Double.Operation

/-!
# Errors of rounded results

A double that stands for a real number is close to it: it is finite, and it is off by at
most an error. Each operation adds what the errors of its operands come to and half a
unit of its own. The magnitudes that are carried along keep results from overflowing.
-/

namespace UpperConfidence.Double

open Float.Model Float.Model.UnpackedFloat

/-- The double `x` is finite and stands for `X` up to an error of `e`, and the magnitude of `X` is
at most `M`. -/
structure Close (x : Float) (X M e : ℝ) : Prop where
  near : ∃ v, value x = some v ∧ |(v : ℝ) - X| ≤ e
  bound : |X| ≤ M

theorem halfLeast_le : halfLeast ≤ 1 / 2 ^ 100 := by
  have exponents : halfLeast ≤ 2 ^ (-100 : ℤ) := zpow_le_zpow_right₀ one_le_two (by decide)
  rwa [zpow_neg, ← one_div, zpow_ofNat] at exponents

theorem exists_large : ∃ y, value y = some (2 ^ 200) := by
  have rounded : Rounded (.finite .positive (2 ^ 52) 148 (by decide)) :=
    ⟨by decide, by decide, .inl le_rfl⟩
  refine ⟨_, (value_ofParts rounded (by decide)).trans ?_⟩
  norm_num

/-- A moderate result of an operation is finite, and its error is at most half a unit. -/
theorem Rounds.close {v M : ℝ} {x : Float} (h : Rounds v x) (bound : |v| ≤ M) (small : M ≤ 2 ^ 200) :
    Close x v M (M / 2 ^ 53 + halfLeast) := by
  obtain ⟨y, hy⟩ := exists_large
  obtain ⟨z, hz, -⟩ := h.exists_value hy (by push_cast; linarith)
  refine ⟨⟨z, hz, (h.near z hz).trans ?_⟩, bound⟩
  have := div_le_div_of_nonneg_right bound (by norm_num : (0 : ℝ) ≤ 2 ^ 53)
  linarith

/-- Rounding takes away less than a quarter of a result that is not tiny. -/
theorem Rounds.three_fourths_le {v : ℝ} {x : Float} {w : ℚ} (h : Rounds v x) (hw : value x = some w)
    (large : 1 / 2 ^ 50 ≤ v) : 3 / 4 * v ≤ w := by
  have near := h.near w hw
  rw [abs_of_nonneg (a := v) (by linarith)] at near
  have := (abs_le.mp near).1
  linarith [halfLeast_le]

namespace Close

variable {x y : Float} {X Y M N e f : ℝ}

theorem mono (h : Close x X M e) {M' e' : ℝ} (hM : M ≤ M') (he : e ≤ e') : Close x X M' e' := by
  obtain ⟨v, hv, near⟩ := h.near
  exact ⟨⟨v, hv, near.trans he⟩, h.bound.trans hM⟩

theorem error_nonneg (h : Close x X M e) : 0 ≤ e := by
  obtain ⟨v, -, near⟩ := h.near
  exact (abs_nonneg _).trans near

theorem bound_nonneg (h : Close x X M e) : 0 ≤ M := (abs_nonneg _).trans h.bound

theorem abs_le {v : ℚ} (h : Close x X M e) (hv : value x = some v) : |(v : ℝ)| ≤ M + e := by
  obtain ⟨w, hw, near⟩ := h.near
  obtain rfl := Option.some_inj.mp (hv.symm.trans hw)
  calc |(v : ℝ)| = |X + (v - X)| := by ring_nf
    _ ≤ |X| + |v - X| := abs_add_le _ _
    _ ≤ M + e := add_le_add h.bound near

/-- What an operation does to the exact results, it does to the doubles up to its own rounding. -/
theorem of_rounds {v V E N B : ℝ} (h : Rounds v x) (near : |v - V| ≤ E) (bound : |V| ≤ N)
    (size : |v| ≤ B) (small : B ≤ 2 ^ 200) : Close x V N (E + (B / 2 ^ 53 + halfLeast)) := by
  obtain ⟨z, hz, error⟩ := (h.close size small).near
  refine ⟨⟨z, hz, ?_⟩, bound⟩
  calc |(z : ℝ) - V| ≤ |z - v| + |v - V| := abs_sub_le _ _ _
    _ ≤ E + (B / 2 ^ 53 + halfLeast) := by linarith

theorem add (hx : Close x X M e) (hy : Close y Y N f) (small : M + e + (N + f) ≤ 2 ^ 200) :
    Close (x + y) (X + Y) (M + N) (e + f + ((M + e + (N + f)) / 2 ^ 53 + halfLeast)) := by
  obtain ⟨v, hv, near⟩ := hx.near
  obtain ⟨w, hw, near'⟩ := hy.near
  refine of_rounds (rounds_add hv hw) ?_ ((abs_add_le X Y).trans (add_le_add hx.bound hy.bound))
    ((abs_add_le _ _).trans (add_le_add (hx.abs_le hv) (hy.abs_le hw))) small
  calc |(v : ℝ) + w - (X + Y)| = |(v - X) + (w - Y)| := by ring_nf
    _ ≤ |v - X| + |w - Y| := abs_add_le _ _
    _ ≤ e + f := add_le_add near near'

theorem neg (hx : Close x X M e) : Close (-x) (-X) M e := by
  obtain ⟨v, hv, near⟩ := hx.near
  refine ⟨⟨-v, value_neg hv, ?_⟩, by rw [abs_neg]; exact hx.bound⟩
  push_cast
  rwa [neg_sub_neg, abs_sub_comm]

theorem sub (hx : Close x X M e) (hy : Close y Y N f) (small : M + e + (N + f) ≤ 2 ^ 200) :
    Close (x - y) (X - Y) (M + N) (e + f + ((M + e + (N + f)) / 2 ^ 53 + halfLeast)) := by
  have same : X - Y = X + -Y := by ring
  rw [sub_eq_add_neg, same]
  exact hx.add hy.neg small

theorem mul (hx : Close x X M e) (hy : Close y Y N f) (small : (M + e) * (N + f) ≤ 2 ^ 200) :
    Close (x * y) (X * Y) (M * N)
      (e * (N + f) + M * f + ((M + e) * (N + f) / 2 ^ 53 + halfLeast)) := by
  obtain ⟨v, hv, near⟩ := hx.near
  obtain ⟨w, hw, near'⟩ := hy.near
  have size := hx.abs_le hv
  have size' := hy.abs_le hw
  refine of_rounds (rounds_mul hv hw) ?_ ?_ ?_ small
  · calc |(v : ℝ) * w - X * Y| = |(v - X) * w + X * (w - Y)| := by ring_nf
      _ ≤ |v - X| * |(w : ℝ)| + |X| * |w - Y| := by
        rw [← abs_mul, ← abs_mul]
        exact abs_add_le _ _
      _ ≤ e * (N + f) + M * f := by
        gcongr
        · exact hx.error_nonneg
        · exact hx.bound_nonneg
        · exact hx.bound
  · rw [abs_mul]
    exact mul_le_mul hx.bound hy.bound (abs_nonneg _) hx.bound_nonneg
  · rw [abs_mul]
    exact mul_le_mul size size' (abs_nonneg _) ((abs_nonneg _).trans size)

/-- Division by a count divides the error too. -/
theorem div (hx : Close x X M e) {c : Float} {n : ℕ} (hc : value c = some (n : ℚ)) (pos : 0 < n)
    (small : (M + e) / n ≤ 2 ^ 200) :
    Close (x / c) (X / n) (M / n) (e / n + ((M + e) / n / 2 ^ 53 + halfLeast)) := by
  obtain ⟨v, hv, near⟩ := hx.near
  have count : (0 : ℝ) < n := by exact_mod_cast pos
  have quotient := rounds_div hv hc (by exact_mod_cast pos.ne')
  rw [Rat.cast_natCast] at quotient
  refine of_rounds quotient ?_ ?_ ?_ small
  · rw [← sub_div, abs_div, abs_of_pos count]
    gcongr
  · rw [abs_div, abs_of_pos count]
    gcongr
    exact hx.bound
  · rw [abs_div, abs_of_pos count]
    gcongr
    exact hx.abs_le hv

end Close

end UpperConfidence.Double
