import UpperConfidence.Proofs.Bandit.Column
import UpperConfidence.Proofs.Double.Close
import UpperConfidence.Proofs.Score.Number

/-!
# Variance estimates from single observations

The estimate of the tuned bound subtracts the square of the average from the average of
the squares. Exactly this is not negative, if the squares are those of the rewards that
have been summed up. In double precision both are off by as much as the number of
summands times half a unit, and the estimate can be negative. The root that is added to
it covers this for rewards and numbers of observations of moderate size. It does not for
large rewards: then the estimate can be negative even if all rewards are the same.
-/

namespace UpperConfidence

open Double

/-! ## Rounded sums -/

/-- The double `x` has come about by summing up `n` values of magnitude at most `W` one by one, and
`X` is their exact sum. -/
def Summed (W : ℝ) (n : ℕ) (x : Float) (X : ℝ) : Prop :=
  Close x X (n * W) (n * ((n + 1) * W) / (2 ^ 51 : ℕ))

section Summed

variable {W X Y : ℝ} {n : ℕ} {x y : Float}

theorem summed_iff : Summed W n x X ↔ Close x X (n * W) (n * ((n + 1) * W) / 2 ^ 51) := by
  rw [Summed, Nat.cast_pow, Nat.cast_ofNat]

theorem summed_zero (W : ℝ) : Summed W 0 0 0 :=
  ⟨⟨0, value_zero, by simp⟩, by simp⟩

/-- The error grows by one summand's share at each step, so it is quadratic in their number. -/
theorem Summed.add (h : Summed W n x X) (hy : Close y Y W (W / 2 ^ 52)) (one : 1 ≤ W)
    (most : W ≤ 2 ^ 60) (few : n ≤ 2 ^ 40) : Summed W (n + 1) (x + y) (X + Y) := by
  have count : (n : ℝ) ≤ 2 ^ 40 := by exact_mod_cast few
  have nonneg : (0 : ℝ) ≤ n := n.cast_nonneg
  have least := halfLeast_le
  -- With the next magnitude as one number, what is left is linear.
  obtain ⟨P, hP⟩ : ∃ P, ((n : ℝ) + 1) * W = P := ⟨_, rfl⟩
  have weight : n * W = P - W := by rw [← hP]; ring
  have more : W ≤ P := by rw [← hP]; nlinarith
  have drift : n * P / 2 ^ 51 ≤ P / 2 := by
    have : n * P ≤ 2 ^ 40 * P := mul_le_mul_of_nonneg_right count (by linarith)
    linarith
  have large : P ≤ 2 ^ 110 := by
    have : ((n : ℝ) + 1) * W ≤ (2 ^ 40 + 1) * 2 ^ 60 := by gcongr
    rw [hP] at this
    linarith
  rw [summed_iff, hP, weight] at h
  refine summed_iff.mpr ((Close.add h hy (by linarith)).mono ?_ ?_)
  · push_cast
    rw [hP]
    linarith
  · have next : ((n + 1 : ℕ) : ℝ) * (((n + 1 : ℕ) + 1) * W) = n * P + 2 * P := by
      rw [← hP]
      push_cast
      ring
    rw [next]
    linarith

/-- The average is as close as the summands are. -/
theorem Summed.average (h : Summed W n x X) (one : 1 ≤ W) (most : W ≤ 2 ^ 60) (few : n ≤ 2 ^ 40)
    (pos : 0 < n) {c : Float} (hc : value c = some (n : ℚ)) :
    Close (x / c) (X / n) W ((n + 2) * W / 2 ^ 51) := by
  have count : (n : ℝ) ≤ 2 ^ 40 := by exact_mod_cast few
  have nonzero : (n : ℝ) ≠ 0 := by exact_mod_cast pos.ne'
  have least := halfLeast_le
  obtain ⟨P, hP⟩ : ∃ P, ((n : ℝ) + 1) * W = P := ⟨_, rfl⟩
  have drift : P / 2 ^ 51 ≤ W := by
    have : ((n : ℝ) + 1) * W ≤ (2 ^ 40 + 1) * W := by gcongr
    rw [hP] at this
    linarith
  have magnitude : n * W / n = W := by field_simp
  have error : n * P / 2 ^ 51 / n = P / 2 ^ 51 := by field_simp
  have size : (n * W + n * P / 2 ^ 51) / n = W + P / 2 ^ 51 := by rw [add_div, magnitude, error]
  have next : ((n : ℝ) + 2) * W = P + W := by rw [← hP]; ring
  rw [summed_iff, hP] at h
  have quotient := h.div hc pos (by rw [size]; linarith)
  rw [size, magnitude, error] at quotient
  refine quotient.mono le_rfl ?_
  rw [next]
  linarith

end Summed

/-! ## Consistent totals -/

/-- A sum of rewards of magnitude at most `R` and the sum of their squares. -/
def Consistent (R : ℝ) (n : ℕ) (s q : Float) : Prop :=
  ∃ S Q, Summed R n s S ∧ Summed (R * R) n q Q ∧ 0 ≤ Q ∧ S * S ≤ n * Q

section Consistent

variable {R : ℝ} {n : ℕ} {s q r : Float}

theorem consistent_zero (R : ℝ) : Consistent R 0 0 0 :=
  ⟨0, 0, summed_zero _, summed_zero _, le_rfl, by simp⟩

theorem close_of_value {ρ : ℚ} (hr : value r = some ρ) (size : |(ρ : ℝ)| ≤ R) (one : 1 ≤ R) :
    Close r ρ R (R / 2 ^ 52) := by
  refine ⟨⟨ρ, hr, ?_⟩, size⟩
  rw [sub_self, abs_zero]
  positivity

theorem close_square {ρ : ℚ} (hr : value r = some ρ) (size : |(ρ : ℝ)| ≤ R) (one : 1 ≤ R)
    (most : R * R ≤ 2 ^ 60) : Close (r * r) (ρ * ρ) (R * R) (R * R / 2 ^ 52) := by
  have square : |(ρ : ℝ) * ρ| ≤ R * R := by
    rw [abs_mul]
    gcongr
  have least := halfLeast_le
  have weight : 1 ≤ R * R := by nlinarith
  exact ((rounds_mul hr hr).close square (by linarith)).mono le_rfl (by linarith)

/-- One more reward keeps the square of the sum below the count times the sum of the squares. -/
theorem Consistent.add (h : Consistent R n s q) {ρ : ℚ} (hr : value r = some ρ)
    (size : |(ρ : ℝ)| ≤ R) (one : 1 ≤ R) (most : R * R ≤ 2 ^ 60) (few : n ≤ 2 ^ 40) :
    Consistent R (n + 1) (s + r) (q + r * r) := by
  obtain ⟨S, Q, hs, hq, nonneg, cauchy⟩ := h
  have weight : 1 ≤ R * R := by nlinarith
  refine ⟨S + ρ, Q + ρ * ρ, hs.add (close_of_value hr size one) one (by nlinarith) few,
    hq.add (close_square hr size one most) weight most few,
    add_nonneg nonneg (mul_self_nonneg _), ?_⟩
  -- The mixed term of the next square is bounded by the square of `n * ρ - S`.
  have cross : 2 * (S * ρ) ≤ n * (ρ * ρ) + Q := by
    rcases Nat.eq_zero_or_pos n with rfl | pos
    · have none : S = 0 := mul_self_eq_zero.mp (le_antisymm (by simpa using cauchy)
        (mul_self_nonneg S))
      simpa [none] using nonneg
    · have count : (0 : ℝ) < n := by exact_mod_cast pos
      refine le_of_mul_le_mul_left ?_ count
      linarith [sq_nonneg (n * (ρ : ℝ) - S)]
  push_cast
  linarith

theorem Consistent.isFinite (h : Consistent R n s q) :
    s.isFinite = true ∧ q.isFinite = true := by
  obtain ⟨S, Q, hs, hq, -⟩ := h
  obtain ⟨v, hv, -⟩ := hs.near
  obtain ⟨w, hw, -⟩ := hq.near
  exact ⟨isFinite_of_value hv, isFinite_of_value hw⟩

end Consistent

/-! ## The estimate -/

section Estimate

variable {R : ℝ} {n : ℕ} {s q c : Float}

/-- The square of the average takes over twice the error of the average, times its magnitude. -/
theorem Summed.square_average {S : ℝ} (h : Summed R n s S) (one : 1 ≤ R) (most : R * R ≤ 2 ^ 60)
    (few : n ≤ 2 ^ 40) (pos : 0 < n) (hc : value c = some (n : ℚ)) :
    Close (s / c * (s / c)) (S / n * (S / n)) (R * R) ((3 * n + 8) * (R * R) / 2 ^ 51) := by
  have count : (n : ℝ) ≤ 2 ^ 40 := by exact_mod_cast few
  have weight : 1 ≤ R * R := by nlinarith
  have average := h.average one (by nlinarith) few pos hc
  obtain ⟨e, he⟩ : ∃ e, ((n : ℝ) + 2) * R / 2 ^ 51 = e := ⟨_, rfl⟩
  rw [he] at average
  have e_le : e ≤ R := by
    have : ((n : ℝ) + 2) * R ≤ (2 ^ 40 + 2) * R := by gcongr
    rw [← he]
    linarith
  have square : e * e ≤ e * R := mul_le_mul_of_nonneg_left e_le average.error_nonneg
  have product : e * R = (n + 2) * (R * R) / 2 ^ 51 := by rw [← he]; ring
  have small : e * R ≤ R * R := mul_le_mul_of_nonneg_right e_le (by linarith)
  have size : (R + e) * (R + e) ≤ 4 * (R * R) := by linarith
  exact (average.mul average (by linarith)).mono le_rfl (by linarith [halfLeast_le])

/-- The average of the squares is below the square of the average by rounding errors only. -/
theorem Consistent.variance (h : Consistent R n s q) (one : 1 ≤ R) (most : R * R ≤ 2 ^ 60)
    (few : n ≤ 2 ^ 40) (pos : 0 < n) (hc : value c = some (n : ℚ)) :
    ∃ δ, value (q / c - s / c * (s / c)) = some δ ∧ -(n * (R * R) / 2 ^ 47) ≤ (δ : ℝ) ∧
      |(δ : ℝ)| ≤ 2 ^ 62 := by
  obtain ⟨S, Q, hs, hq, nonneg, cauchy⟩ := h
  have count : (1 : ℝ) ≤ n := by exact_mod_cast pos
  have weight : 1 ≤ R * R := by nlinarith
  have square := hs.square_average one most few pos hc
  have squares := hq.average weight most few pos hc
  -- Everything below is linear in the weight of one summand and that of all of them.
  obtain ⟨W, hW⟩ : ∃ W, R * R = W := ⟨_, rfl⟩
  obtain ⟨N, hN⟩ : ∃ N, n * W = N := ⟨_, rfl⟩
  have share : ((n : ℝ) + 2) * W = N + 2 * W := by rw [← hN]; ring
  have share' : (3 * (n : ℝ) + 8) * W = 3 * N + 8 * W := by rw [← hN]; ring
  rw [hW] at weight most
  rw [hW, share'] at square
  rw [hW, share] at squares
  have more : W ≤ N := by rw [← hN]; nlinarith
  have drift : N ≤ 2 ^ 40 * W := by
    have : (n : ℝ) ≤ 2 ^ 40 := by exact_mod_cast few
    rw [← hN]
    gcongr
  have least := halfLeast_le
  have exact : S / n * (S / n) ≤ Q / n := by
    rw [div_mul_div_comm, div_le_div_iff₀ (by positivity) (by positivity)]
    nlinarith
  have bounded : Q / n - S / n * (S / n) ≤ W + W := by
    have := (abs_le.mp squares.bound).2
    have := (abs_le.mp square.bound).1
    linarith
  obtain ⟨δ, hδ, near⟩ := (squares.sub square (by linarith)).near
  obtain ⟨low, high⟩ := abs_le.mp near
  refine ⟨δ, hδ, ?_, abs_le.mpr ⟨?_, ?_⟩⟩
  · rw [hW, hN]
    linarith
  · linarith
  · linarith

theorem value_half : value 0.5 = some (1 / 2) := by
  have parts : parts 0.5 = .finite .positive (2 ^ 52) (-53) (by decide) := rfl
  simp only [value, parts, partsValue, apply_positive]
  norm_num

/-- With a logarithm of at least one half the root in the estimate is about one over the root of
the count, or more. -/
theorem exists_root {l c : Float} {n : ℕ} {t : ℚ} (hl : value l = some t) (half : 1 ≤ 2 * t)
    (width : Within 7 (l / c)) (hc : value c = some (n : ℚ)) (pos : 0 < n) (few : n ≤ 2 ^ 40)
    {B : ℝ} (least : 1 / 2 ^ 47 ≤ B) (most : (2 * B) ^ 2 * (4 * n) ≤ 1) :
    ∃ ρ, value (2 * (l / c)).sqrt = some ρ ∧ B ≤ (ρ : ℝ) ∧ (ρ : ℝ) ≤ 2 ^ 7 := by
  obtain ⟨y, hy⟩ : ∃ y : ℝ, 1 / (n : ℝ) = y := ⟨_, rfl⟩
  have count : (1 : ℝ) ≤ n := by exact_mod_cast pos
  have y_least : 1 / 2 ^ 40 ≤ y := by
    rw [← hy]
    exact one_div_le_one_div_of_le (by linarith) (by exact_mod_cast few)
  have quotient : y / 2 ≤ t / n := by
    have twice : (1 : ℝ) ≤ 2 * t := by exact_mod_cast half
    have := mul_le_mul_of_nonneg_right twice (by linarith : 0 ≤ y)
    rw [div_eq_mul_one_div (t : ℝ), hy]
    linarith
  obtain ⟨w, hw, -⟩ := width.exists_value
  have w_least : 3 / 4 * ((t : ℝ) / n) ≤ w := by
    have rounds := rounds_div hl hc (by exact_mod_cast pos.ne')
    rw [Rat.cast_natCast] at rounds
    exact rounds.three_fourths_le hw (by linarith)
  obtain ⟨τ, hτ, τ_nonneg⟩ := (within_mul (by omega) within_two width).exists_value
  have τ_least : 3 / 4 * (2 * (w : ℝ)) ≤ τ := by
    have rounds := rounds_mul value_two hw
    rw [Rat.cast_ofNat] at rounds
    exact rounds.three_fourths_le hτ (by linarith)
  have root : 2 * B ≤ √τ := by
    refine Real.le_sqrt_of_sq_le ?_
    have : (2 * B) ^ 2 ≤ 1 / (4 * n) := (le_div_iff₀ (by positivity)).mpr most
    rw [← one_div_mul_one_div, hy] at this
    linarith
  have size := within_root width
  obtain ⟨ρ, hρ, -⟩ := size.exists_value
  refine ⟨ρ, hρ, ?_, ?_⟩
  · have := (rounds_sqrt hτ τ_nonneg).three_fourths_le hρ (by linarith)
    linarith
  · exact_mod_cast (size.value_lt hρ).le

/-- What bounds rewards and their number together bounds each of them. -/
theorem limits_of_le (one : 1 ≤ R) (pos : 0 < n) (bound : R ^ 4 * n ^ 3 ≤ 2 ^ 90) :
    R * R ≤ 2 ^ 60 ∧ n ≤ 2 ^ 40 := by
  have count : (1 : ℝ) ≤ n := by exact_mod_cast pos
  have rewards : (R * R) ^ 2 ≤ (2 ^ 45) ^ 2 := by
    have : R ^ 4 * 1 ≤ R ^ 4 * n ^ 3 := by
      gcongr
      exact one_le_pow₀ count
    linarith
  have counts : (n : ℝ) ^ 3 ≤ (2 ^ 30) ^ 3 := by
    have : 1 * (n : ℝ) ^ 3 ≤ R ^ 4 * n ^ 3 := by
      gcongr
      exact one_le_pow₀ one
    linarith
  have first := (pow_le_pow_iff_left₀ (by positivity) (by positivity) two_ne_zero).mp rewards
  have second := (pow_le_pow_iff_left₀ (by positivity) (by positivity) three_ne_zero).mp counts
  refine ⟨by linarith, ?_⟩
  have : n ≤ 2 ^ 30 := by exact_mod_cast second
  omega

/-- The tuned bound of consistent totals of moderate size is a number. -/
theorem Consistent.isNaN_formula (h : Consistent R n s q) (one : 1 ≤ R) (pos : 0 < n)
    (bound : R ^ 4 * n ^ 3 ≤ 2 ^ 90) (hc : value c = some (n : ℚ)) {l : Float} {t : ℚ}
    (hl : value l = some t) (half : 1 ≤ 2 * t) (width : Within 7 (l / c)) :
    (Algorithm.tuned.formula (s / c) (q / c) (l / c)).isNaN = false := by
  obtain ⟨most, few⟩ := limits_of_le one pos bound
  obtain ⟨δ, hδ, low, size⟩ := h.variance one most few pos hc
  have count : (1 : ℝ) ≤ n := by exact_mod_cast pos
  have weight : 1 ≤ R * R := by nlinarith
  have shortfall : 1 / 2 ^ 47 ≤ n * (R * R) / 2 ^ 47 := by
    gcongr
    nlinarith
  have covered : (2 * (n * (R * R) / 2 ^ 47)) ^ 2 * (4 * n) ≤ 1 := by
    have : (2 * (n * (R * R) / 2 ^ 47)) ^ 2 * (4 * n) = R ^ 4 * n ^ 3 / 2 ^ 90 := by ring
    rw [this]
    linarith
  obtain ⟨ρ, hρ, root, root_le⟩ := exists_root hl half width hc pos few shortfall covered
  obtain ⟨w, hw, w_nonneg⟩ := width.exists_value
  have sum := rounds_add hδ hρ
  have nonneg := sum.nonneg (by linarith)
  have magnitude : |(δ : ℝ) + ρ| ≤ 2 ^ 63 := by
    have := abs_le.mp size
    exact abs_le.mpr ⟨by linarith, by linarith⟩
  obtain ⟨ε, hε, -⟩ := (sum.close magnitude (by norm_num)).near
  have radicand := nonneg_mul hw hε w_nonneg ((le_iff_value value_zero hε).mp nonneg)
  obtain ⟨S, -, hs, -⟩ := h
  obtain ⟨α, hα, -⟩ := (hs.average one (by nlinarith) few pos hc).near
  exact isNaN_add_nonneg hα (nonneg_sqrt radicand)

end Estimate

/-! ## Runs of single observations -/

/-- A single observation with a finite reward of magnitude at most `R`. -/
def Operation.SingleWithin (R : ℝ) : Operation → Prop
  | .batch _ => False
  | .single _ reward => ∃ ρ, value reward = some ρ ∧ |(ρ : ℝ)| ≤ R

namespace Bandit

variable {b b' : Bandit} {op : Operation} {R : ℝ} {m n : ℕ} {ln : Float → Float}

/-- The totals of every arm are those of at most `m` rewards of magnitude at most `R`. -/
def Backed (b : Bandit) (R : ℝ) (m : ℕ) : Prop :=
  ∀ (i : ℕ) c s q, b.stats.counts[i]? = some c → b.stats.rewards[i]? = some s →
    (∃ qs ∈ b.stats.squares, qs[i]? = some q) →
    ∃ n : ℕ, n ≤ m ∧ value c = some (n : ℚ) ∧ Consistent R n s q

theorem backed_of_create {config : Config} (created : create config = .ok b) (R : ℝ) :
    b.Backed R 0 := by
  rintro i c s q hc hs ⟨qs, given, hq⟩
  rw [stats_of_create created] at hc hs given
  have zero {n : ℕ} {x : Float} (h : (Values.zeros n)[i]? = some x) : x = 0 :=
    List.eq_of_mem_replicate (List.mem_of_getElem? h)
  obtain rfl := zero hc
  obtain rfl := zero hs
  obtain ⟨-, rfl⟩ : b.algorithm.tracksVariance = true ∧ Values.zeros b.size = qs := by
    simpa [Stats.fresh] using given
  obtain rfl := zero hq
  exact ⟨0, le_rfl, by simp, consistent_zero R⟩

/-- An accepted observation adds to the totals of its arm, and leaves those of the others. -/
theorem Backed.step (h : b.Backed R m) (wf : b.WellFormed) (accepted : b.step op = (b', .ok ()))
    (single : op.SingleWithin R) (one : 1 ≤ R) (most : R * R ≤ 2 ^ 60) (few : m ≤ 2 ^ 40) :
    b'.Backed R (m + 1) := by
  cases op with
  | batch given => cases single
  | single arm r =>
    obtain ⟨ρ, hr, size⟩ := single
    obtain ⟨c, contributed⟩ := exists_contribution accepted
    have known := (placeable_of_contribution wf.toReady contributed).known
    obtain ⟨k, place⟩ := List.mem_iff_getElem?.mp (known (by simp [names] : arm ∈ _))
    rintro i c' s' q' hc' hs' ⟨qs', given', hq'⟩
    have counts : b'.stats.counts ∈ b'.stats.column .counts := rfl
    have rewards : b'.stats.rewards ∈ b'.stats.column .rewards := rfl
    have squares : qs' ∈ b'.stats.column .squares := given'
    obtain ⟨cs, hcs, ⟨c, hc, countGrown⟩, sameCount⟩ := grownAt_of_single wf accepted place counts
    obtain ⟨ss, hss, ⟨s, hs, sumGrown⟩, sameSum⟩ := grownAt_of_single wf accepted place rewards
    obtain ⟨qs, given, ⟨q, hq, squareGrown⟩, sameSquare⟩ :=
      grownAt_of_single wf accepted place squares
    obtain rfl := Option.some_inj.mp hcs
    obtain rfl := Option.some_inj.mp hss
    by_cases here : i = k
    · subst here
      obtain rfl := Option.some_inj.mp (countGrown.symm.trans hc')
      obtain rfl := Option.some_inj.mp (sumGrown.symm.trans hs')
      obtain rfl := Option.some_inj.mp (squareGrown.symm.trans hq')
      obtain ⟨n, le, count, consistent⟩ := h i c s q hc hs ⟨qs, given, hq⟩
      have unit : value (Column.counts.entry r) = some ((1 : ℕ) : ℚ) := by
        rw [Nat.cast_one]
        exact value_one
      exact ⟨n + 1, by omega, Values.value_add_count count unit (by omega),
        consistent.add hr size one most (by omega)⟩
    · rw [sameCount i here] at hc'
      rw [sameSum i here] at hs'
      rw [sameSquare i here] at hq'
      obtain ⟨n, le, found⟩ := h i c' s' q' hc' hs' ⟨qs, given, hq'⟩
      exact ⟨n, by omega, found⟩

theorem Backed.foldlM (h : b.Backed R m) (wf : b.WellFormed) {ops : List Operation}
    (accepted : ops.foldlM apply b = .ok b') (singles : ∀ op ∈ ops, op.SingleWithin R)
    (one : 1 ≤ R) (most : R * R ≤ 2 ^ 60) (few : m + ops.length ≤ 2 ^ 40) :
    b'.Backed R (m + ops.length) := by
  induction ops generalizing b m with
  | nil =>
    obtain rfl : b = b' := Except.ok.inj accepted
    exact h
  | cons op ops ih =>
    obtain ⟨b₁, first, rest⟩ := foldlM_apply_cons accepted
    obtain ⟨here, later⟩ := List.forall_mem_cons.mp singles
    rw [List.length_cons, ← Nat.add_assoc, Nat.add_right_comm] at few ⊢
    have kept := wf.step op
    rw [first] at kept
    exact ih (h.step wf first here one most (by omega)) kept rest later few

/-- Single observations are counted one by one. -/
theorem counting_of_singles {ops : List Operation} (singles : ∀ op ∈ ops, op.SingleWithin R) :
    Values.Counting (ops.flatMap Operation.counts) ops.length := by
  induction ops with
  | nil => exact Values.counting_nil_iff.mpr rfl
  | cons op ops ih =>
    obtain ⟨here, later⟩ := List.forall_mem_cons.mp singles
    cases op with
    | batch given => cases here
    | single arm r =>
      exact Values.counting_cons_iff.mpr ⟨1, ops.length, by simp, ih later, by
        rw [List.length_cons, Nat.add_comm]⟩

/-! ## Scores -/

theorem exists_squares (wf : b.WellFormed) (tuned : b.algorithm = .tuned) :
    ∃ qs, b.stats.squares = some qs := by
  rw [← Option.isSome_iff_exists, wf.fits.2.2.1, tuned]
  rfl

theorem Backed.finiteTotals (h : b.Backed R n) (wf : b.WellFormed) (tuned : b.algorithm = .tuned) :
    b.FiniteTotals := by
  obtain ⟨qs, given⟩ := exists_squares wf tuned
  have finite {i : ℕ} (hi : i < b.size) : ∃ s q, b.stats.rewards[i]? = some s ∧ qs[i]? = some q ∧
      s.isFinite = true ∧ q.isFinite = true := by
    obtain ⟨c, s, -, hc, hs, -⟩ := wf.exists_entries hi
    have hq := List.getElem?_eq_getElem (l := qs) (hi.trans_eq (wf.fits.2.2.2 qs given).symm)
    obtain ⟨k, -, -, consistent⟩ := h i c s _ hc hs ⟨qs, given, hq⟩
    exact ⟨s, _, hs, hq, consistent.isFinite⟩
  refine ⟨fun s mem => ?_, fun _ kept same q mem => ?_⟩
  · obtain ⟨i, entry⟩ := List.mem_iff_getElem?.mp mem
    obtain ⟨hi, -⟩ := List.getElem?_eq_some_iff.mp entry
    obtain ⟨s', q, hs, -, regular, -⟩ := finite (hi.trans_eq wf.fits.2.1)
    rwa [Option.some_inj.mp (entry.symm.trans hs)]
  · obtain rfl := Option.some_inj.mp (given.symm.trans same)
    obtain ⟨i, entry⟩ := List.mem_iff_getElem?.mp mem
    obtain ⟨hi, -⟩ := List.getElem?_eq_some_iff.mp entry
    obtain ⟨s, q', -, hq, -, regular⟩ := finite (hi.trans_eq (wf.fits.2.2.2 _ given))
    rwa [Option.some_inj.mp (entry.symm.trans hq)]

/-- As long as the rewards and their number are of moderate size, every score is a number. -/
theorem Backed.numbers (h : b.Backed R n) (wf : b.WellFormed) (tuned : b.algorithm = .tuned)
    (tallied : b.Tallied n) (one : 1 ≤ R) (bound : R ^ 4 * n ^ 3 ≤ 2 ^ 90) (law : LogBound ln)
    (half : ∀ x, 2 ≤ x → x ≤ 18014398509481984 → 0.5 ≤ ln x) :
    ∀ x ∈ b.scores ln, x.isNaN = false := by
  have few : n ≤ 2 ^ 53 := by
    rcases Nat.eq_zero_or_pos n with rfl | pos
    · exact Nat.zero_le _
    · have := (limits_of_le one pos bound).2
      omega
  refine numbers_of_played wf tallied few law (h.finiteTotals wf tuned) ?_
  intro i c s q k played
  obtain ⟨qs, given⟩ := exists_squares wf tuned
  have square := played.square
  rw [given, Option.map_some] at square
  obtain ⟨x, rfl, hx⟩ := Option.map_eq_some_iff.mp square.symm
  obtain ⟨k', -, count, consistent⟩ := h i c s x played.count played.reward ⟨qs, given, hx.symm⟩
  obtain rfl : k = k' := by
    exact_mod_cast Option.some_inj.mp (played.value.symm.trans count)
  have share : R ^ 4 * (k : ℝ) ^ 3 ≤ 2 ^ 90 := by
    refine le_trans ?_ bound
    have le : (k : ℝ) ≤ n := by exact_mod_cast played.le
    gcongr
  have two : 2 ≤ b.stats.total.toFloat + 1 :=
    two_le_add_one (value_total tallied few) (played.pos.trans_le played.le)
  obtain ⟨t, ht, -⟩ := (within_logTotal law tallied few).exists_value
  have least := half _ two (total_add_one_mem tallied few).2
  have twice : 1 ≤ 2 * t := by
    have := (le_iff_value value_half ht).mp least
    linarith
  rw [tuned]
  exact consistent.isNaN_formula one played.pos share count ht twice
    (played.within_width tallied few law)

/-- After single observations of moderate rewards, and not too many of them, every score of the
tuned bound is a number, so the choice is between all arms. -/
theorem numbers_of_singles {config : Config} {start b : Bandit}
    (created : create config = .ok start) (tuned : config.algorithm = .tuned)
    (activities : List Activity) (reached : start.history activities = b) (one : 1 ≤ R)
    (singles : ∀ op ∈ start.accepted activities, op.SingleWithin R)
    (bound : R ^ 4 * (start.accepted activities).length ^ 3 ≤ 2 ^ 90) (law : LogBound ln)
    (half : ∀ x, 2 ≤ x → x ≤ 18014398509481984 → 0.5 ≤ ln x) :
    (∀ x ∈ b.scores ln, x.isNaN = false) ∧
    ∃ (j : ℕ) (arm : ArmId) (m : Float), b.ids[j]? = some arm ∧ b.action ln = .ok arm ∧
      (b.scores ln)[j]? = some m ∧ ∀ x ∈ b.scores ln, x ≤ m := by
  obtain ⟨wf, -, same⟩ := wellFormed_of_create created
  obtain ⟨wf', -, same'⟩ := wf.history activities
  obtain ⟨ops, hops⟩ : ∃ ops, start.accepted activities = ops := ⟨_, rfl⟩
  have accepted := wf.foldlM_accepted activities
  rw [reached] at wf' same' accepted
  rw [hops] at singles bound accepted
  -- Without any observation there is no bound on the rewards, and none is needed.
  have backed : b.Backed R ops.length ∧ ops.length ≤ 2 ^ 53 := by
    cases ops with
    | nil =>
      obtain rfl : start = b := Except.ok.inj accepted
      exact ⟨backed_of_create created R, Nat.zero_le _⟩
    | cons op ops =>
      obtain ⟨most, few⟩ := limits_of_le one (Nat.succ_pos ops.length) bound
      have run := (backed_of_create created R).foldlM wf accepted singles one most
        (by rwa [Nat.zero_add])
      exact ⟨by rwa [Nat.zero_add] at run, by rw [List.length_cons]; omega⟩
  have counts : Values.Counting ((start.accepted activities).flatMap Operation.counts)
      ops.length := by
    rw [hops]
    exact counting_of_singles singles
  have tallied := tallied_of_history created counts backed.2
  rw [reached] at tallied
  have numbers := backed.1.numbers wf' (same'.trans (same.trans tuned)) tallied one bound law half
  exact ⟨numbers, action_of_numbers wf' numbers⟩

/-- Two rewards for one of two arms. -/
theorem numbers_of_singles_of_two_arms : ∃ (ln : Float → Float) (b : Bandit),
    ln 3 = 1.0986122886681098 ∧ b.Reachable ∧ b.algorithm = .tuned ∧ b.stats.counts = [2, 0] ∧
    b.stats.rewards = [1.5, 0] ∧ ∀ x ∈ b.scores ln, x.isNaN = false := by
  obtain ⟨ln, given, law, least⟩ := exists_logBound 3 1.0986122886681098 (by decide) (by decide)
  have half : ∀ x, 2 ≤ x → x ≤ 18014398509481984 → 0.5 ≤ ln x := fun x _ _ => least x
  obtain ⟨start, hs, created, -⟩ := exists_create (.count 2) .tuned (by decide) (by decide)
  obtain ⟨ops, hops⟩ : ∃ ops : List Operation,
      [.single (.ofInt 0) 1, .single (.ofInt 0) 0.5] = ops := ⟨_, rfl⟩
  obtain ⟨b, reached⟩ : ∃ b, start.history (ops.map .operation) = b := ⟨_, rfl⟩
  have accepted : start.accepted (ops.map .operation) = ops := by
    rw [← hs, ← hops]
    decide +kernel
  have singles : ∀ op ∈ start.accepted (ops.map .operation), op.SingleWithin 1 := by
    rw [accepted, ← hops]
    intro op mem
    rcases (by simpa using mem : op = _ ∨ op = _) with rfl | rfl
    · exact ⟨1, value_one, by norm_num⟩
    · exact ⟨1 / 2, value_half, by norm_num⟩
  have state : b.stats.counts = [2, 0] ∧ b.stats.rewards = [1.5, 0] ∧ b.algorithm = .tuned := by
    rw [← reached, ← hs, ← hops]
    decide +kernel
  obtain ⟨counts, rewards, algorithm⟩ := state
  have length : (start.accepted (ops.map .operation)).length = 2 := by rw [accepted, ← hops]; rfl
  obtain ⟨numbers, -⟩ := numbers_of_singles created rfl _ reached le_rfl singles
    (by rw [length]; norm_num) law half
  exact ⟨ln, b, given, ⟨_, _, _, created, reached⟩, algorithm, counts, rewards, numbers⟩

/-- Three equal rewards of about a billion for one arm, and none for the other. The square of the
average of the first is rounded up and the average of its squares is rounded down, so its score is
not a number, and the other arm is chosen. -/
theorem score_nan_of_equal_rewards : ∃ (ln : Float → Float) (start b : Bandit), LogBound ln ∧
    (∀ x, 2 ≤ x → x ≤ 18014398509481984 → 0.5 ≤ ln x) ∧ ln 5 = 1.6094379124341003 ∧
    create ⟨.count 2, .tuned⟩ = .ok start ∧
    [Operation.single (.ofInt 0) 1000000027, .single (.ofInt 0) 1000000027,
      .single (.ofInt 0) 1000000027, .single (.ofInt 1) 0].foldlM apply start = .ok b ∧
    (b.scores ln)[0]? = some nan ∧ b.action ln = .ok (.ofInt 1) := by
  obtain ⟨ln, hln⟩ : ∃ ln : Float → Float, (fun x => if x = 5 then 1.6094379124341003 else 1) = ln :=
    ⟨_, rfl⟩
  have law : LogBound ln := by
    rw [← hln]
    constructor <;> intro x _ _ <;> split <;> decide
  have half : ∀ x, 2 ≤ x → x ≤ 18014398509481984 → 0.5 ≤ ln x := by
    rw [← hln]
    intro x _ _
    dsimp only
    split <;> decide
  obtain ⟨start, hs, created, -⟩ := exists_create (.count 2) .tuned (by decide) (by decide)
  refine ⟨ln, start,
    { start with stats := ⟨4, [3, 1], [3000000081, 0], some [3000000162000002048, 0]⟩ }, law, half,
    by rw [← hln]; rfl, created, ?_, ?_⟩
  · rw [← hs]
    decide +kernel
  · rw [← hln, ← hs]
    decide +kernel

end Bandit

end UpperConfidence
