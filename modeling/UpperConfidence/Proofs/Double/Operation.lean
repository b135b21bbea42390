import UpperConfidence.Proofs.Double.Nearest

/-!
# Rounded operations

Each operation on doubles with a value gives what the exact result is rounded to.
The quotient and the root of mantissas have a remainder, from which it is seen on
which side of one half the fraction lies.
-/

namespace UpperConfidence.Double

open Float.Model Float.Model.UnpackedFloat

variable {x y : Float} {v w : ℚ}

/-! ## Sums and differences -/

theorem rounds_add (hx : value x = some v) (hy : value y = some w) : Rounds (v + w) (x + y) := by
  rcases value_cases hx with ⟨s, -, rfl⟩ | ⟨s, m, e, hm, px, ev⟩
  · have sum := rounds_of_value ((value_add_zero y hx).1.trans hy)
    rwa [Rat.cast_zero, zero_add]
  · rcases value_cases hy with ⟨t, -, rfl⟩ | ⟨t, n, f, hn, py, ew⟩
    · have sum := rounds_of_value ((value_add_zero x hy).2.trans hx)
      rwa [Rat.cast_zero, add_zero]
    · obtain ⟨S, sum, exact⟩ := add_eq_normalize px py
      rw [← ev, ← ew] at exact
      have same : (v : ℝ) + w = S * 2 ^ min e f := by
        rw [← Rat.cast_add, ← exact]
        push_cast
        rfl
      rw [sum, same]
      exact rounds_normalize S _

theorem rounds_sub (hx : value x = some v) (hy : value y = some w) : Rounds (v - w) (x - y) := by
  have sum := rounds_add hx (value_neg hy)
  rw [sub_eq_add_neg]
  push_cast at sum
  exact sum

/-! ## Products -/

theorem signed_mul (s t : Sign) (a b : ℝ) : signed (s * t) (a * b) = signed s a * signed t b := by
  cases s <;> cases t
  · exact (neg_mul_neg a b).symm
  · exact (neg_mul a b).symm
  · exact (mul_neg a b).symm
  · rfl

theorem rounds_zero (s : Sign) : Rounds 0 (ofParts (.zero s)) := by
  have zero : value (ofParts (.zero s)) = some 0 := by
    rw [value, parts_ofParts (u := .zero s) trivial]
    rfl
  exact_mod_cast rounds_of_value zero

theorem rounds_mul (hx : value x = some v) (hy : value y = some w) : Rounds (v * w) (x * y) := by
  rw [mul_def]
  rcases value_cases hx with ⟨s, px, rfl⟩ | ⟨s, m, e, hm, px, rfl⟩
  · rw [Rat.cast_zero, zero_mul]
    rcases value_cases hy with ⟨t, py, -⟩ | ⟨t, n, f, hn, py, -⟩ <;>
      · rw [px, py]
        exact rounds_zero _
  · rcases value_cases hy with ⟨t, py, rfl⟩ | ⟨t, n, f, hn, py, rfl⟩
    · rw [Rat.cast_zero, mul_zero, px, py]
      exact rounds_zero _
    · have exact : Accurate (m * n) .exact ((m * n : ℕ) : ℝ) := rfl
      have rounds := rounds_roundWithAccuracy (s * t) exact (mul_exponent_le px py)
      have same : ((m * n : ℕ) : ℝ) * 2 ^ (e + f) = m * 2 ^ e * (n * 2 ^ f) := by
        rw [zpow_add₀ two_ne_zero]
        push_cast
        ring
      rw [same, signed_mul] at rounds
      rw [cast_apply, cast_apply, px, py]
      exact rounds

/-! ## Quotients -/

theorem signed_div (s t : Sign) (a b : ℝ) : signed (s / t) (a / b) = signed s a / signed t b := by
  cases s <;> cases t
  · exact (neg_div_neg_eq a b).symm
  · exact (neg_div b a).symm
  · exact (div_neg a).symm
  · rfl

/-- The remainder of a division says where the fraction of the quotient is. -/
theorem accurate_quotient (a : ℕ) {n : ℕ} (hn : 0 < n) :
    Accurate (a / n) (accuracyOfFraction (a % n) n) ((a : ℝ) / n) := by
  have pos : (0 : ℝ) < n := by exact_mod_cast hn
  have split : (a : ℝ) = n * (a / n : ℕ) + (a % n : ℕ) := by
    exact_mod_cast (Nat.div_add_mod a n).symm
  have less : ((a % n : ℕ) : ℝ) < n := by exact_mod_cast Nat.mod_lt a hn
  have quotient : (a : ℝ) / n = (a / n : ℕ) + ((a % n : ℕ) : ℝ) / n := by
    rw [split, add_div, mul_div_cancel_left₀ _ pos.ne']
  rw [quotient, accuracyOfFraction]
  obtain ⟨r, hr⟩ : ∃ r, a % n = r := ⟨_, rfl⟩
  rw [hr] at less ⊢
  split
  · rename_i zero
    simp [Accurate, zero]
  · rename_i nonzero
    have rpos : (0 : ℝ) < r := by exact_mod_cast Nat.pos_of_ne_zero nonzero
    rcases lt_trichotomy (2 * r) n with lt | eq | gt
    · have half : (2 : ℝ) * r < n := by exact_mod_cast lt
      rw [compare_lt_iff_lt.mpr lt]
      have : (r : ℝ) / n < 1 / 2 := by rw [div_lt_iff₀ pos]; linarith
      have : 0 < (r : ℝ) / n := by positivity
      constructor <;> linarith
    · have half : (2 : ℝ) * r = n := by exact_mod_cast eq
      rw [compare_eq_iff_eq.mpr eq]
      have : (r : ℝ) / n = 1 / 2 := by rw [div_eq_iff pos.ne']; linarith
      simp only [Accurate]
      linarith
    · have half : (n : ℝ) < 2 * r := by exact_mod_cast gt
      rw [compare_gt_iff_gt.mpr gt]
      have : 1 / 2 < (r : ℝ) / n := by rw [lt_div_iff₀ pos]; linarith
      have : (r : ℝ) / n < 1 := by rw [div_lt_iff₀ pos]; linarith
      constructor <;> linarith

/-- The exact quotient of two mantissas, as a whole part with a remainder. -/
theorem exists_divCore {m n : ℕ} (hm : 0 < m) (hn : 0 < n) (e f : ℤ) :
    ∃ q u acc X, divCore .binary64 m e n f = (q, u, acc) ∧ Accurate q acc X ∧
      u ≤ Format.binary64.targetExponent (totalExponent q u) ∧
      X * 2 ^ u = m * 2 ^ e / (n * 2 ^ f) := by
  obtain ⟨q, u, acc, core, exponent, -⟩ := divCore_spec hm hn e f
  obtain ⟨k, hk⟩ : ∃ k, (e - f - u).toNat = k := ⟨_, rfl⟩
  have target : min (e - f) (Format.binary64.targetExponent
      (totalExponent m e - totalExponent n f)) = u := by
    exact congrArg (fun p => p.2.1) core
  have unfolded : divCore .binary64 m e n f =
      (m * 2 ^ k / n, u, accuracyOfFraction (m * 2 ^ k % n) n) := by
    simp only [divCore, target, hk, Nat.shiftLeft_eq]
  obtain ⟨rfl, rfl⟩ : m * 2 ^ k / n = q ∧ accuracyOfFraction (m * 2 ^ k % n) n = acc := by
    rw [unfolded] at core
    simpa using core
  refine ⟨_, u, _, _, core, accurate_quotient _ hn, exponent, ?_⟩
  have shifted : e = f + u + (k : ℤ) := by
    have := min_le_left (e - f) (Format.binary64.targetExponent
      (totalExponent m e - totalExponent n f))
    omega
  have pos : (n : ℝ) ≠ 0 := by exact_mod_cast hn.ne'
  have scale := (real_two_zpow_pos f).ne'
  rw [shifted, zpow_add₀ two_ne_zero, zpow_add₀ two_ne_zero, zpow_natCast]
  push_cast
  field_simp

theorem rounds_div (hx : value x = some v) (hy : value y = some w) (nonzero : w ≠ 0) :
    Rounds (v / w) (x / y) := by
  rw [div_def]
  rcases value_cases hy with ⟨t, py, rfl⟩ | ⟨t, n, f, hn, py, rfl⟩
  · exact absurd rfl nonzero
  · rcases value_cases hx with ⟨s, px, rfl⟩ | ⟨s, m, e, hm, px, rfl⟩
    · rw [Rat.cast_zero, zero_div, px, py]
      exact rounds_zero _
    · obtain ⟨q, u, acc, X, core, accurate, exponent, exact⟩ := exists_divCore hm hn e f
      have rounds := rounds_roundWithAccuracy (s / t) accurate exponent
      rw [exact, signed_div] at rounds
      rw [cast_apply, cast_apply, px, py]
      simp only [UnpackedFloat.div, core]
      exact rounds

/-! ## Square roots -/

/-- The remainder of a root says where its fraction is, which is never one half. -/
theorem accurate_root (a : ℕ) :
    Accurate a.sqrt (if a - a.sqrt * a.sqrt = 0 then .exact
      else .inexact (if a - a.sqrt * a.sqrt ≤ a.sqrt then .lt else .gt)) √a := by
  obtain ⟨r, hr⟩ : ∃ r, a.sqrt = r := ⟨_, rfl⟩
  have lower : r * r ≤ a := hr ▸ Nat.sqrt_le a
  have upper : a < (r + 1) * (r + 1) := hr ▸ Nat.lt_succ_sqrt a
  have nonneg : (0 : ℝ) ≤ r := Nat.cast_nonneg r
  have next : √a < r + 1 := by
    rw [Real.sqrt_lt' (by positivity), sq]
    exact_mod_cast upper
  rw [hr]
  split
  · rename_i none
    have same : a = r * r := by omega
    rw [same, Nat.cast_mul]
    exact Real.sqrt_mul_self nonneg
  · rename_i some
    have first : (r : ℝ) < √a := by
      rw [Real.lt_sqrt nonneg, sq]
      exact_mod_cast (by omega : r * r < a)
    split
    · rename_i small
      refine ⟨first, ?_⟩
      rw [Real.sqrt_lt' (by positivity)]
      have bound : (a : ℝ) ≤ r * r + r := by exact_mod_cast (by omega : a ≤ r * r + r)
      nlinarith
    · rename_i large
      refine ⟨?_, next⟩
      rw [Real.lt_sqrt (by positivity)]
      have bound : (r : ℝ) * r + r + 1 ≤ a := by exact_mod_cast (by omega : r * r + r + 1 ≤ a)
      nlinarith

/-- The exact root of a mantissa, as a whole part with a remainder. -/
theorem exists_sqrtCore {m : ℕ} (hm : 0 < m) (e : ℤ) :
    ∃ r t acc X, sqrtCore .binary64 m e = (r, t, acc) ∧ Accurate r acc X ∧
      t ≤ Format.binary64.targetExponent (totalExponent r t) ∧
      X * 2 ^ t = √(m * 2 ^ e) := by
  obtain ⟨r, t, acc, core, -, exponent, -⟩ := sqrtCore_spec hm e
  obtain ⟨k, hk⟩ : ∃ k, (e - 2 * t).toNat = k := ⟨_, rfl⟩
  have target : min (e.ediv 2) (Format.binary64.targetExponent
      ((totalExponent m e + 1).ediv 2)) = t := by
    exact congrArg (fun p => p.2.1) core
  have unfolded : sqrtCore .binary64 m e = ((m * 2 ^ k).sqrt, t,
      if m * 2 ^ k - (m * 2 ^ k).sqrt * (m * 2 ^ k).sqrt = 0 then .exact
      else .inexact (if m * 2 ^ k - (m * 2 ^ k).sqrt * (m * 2 ^ k).sqrt ≤ (m * 2 ^ k).sqrt then .lt
        else .gt)) := by
    simp only [sqrtCore, target, hk, Nat.shiftLeft_eq]
  rw [unfolded] at core
  obtain ⟨rfl, -, rfl⟩ : (m * 2 ^ k).sqrt = r ∧ t = t ∧ _ = acc := by simpa using core
  refine ⟨_, t, _, _, unfolded, accurate_root _, exponent, ?_⟩
  have even : e = (k : ℤ) + (t + t) := by
    have : t ≤ e / 2 := target ▸ min_le_left _ _
    omega
  have exact : (m : ℝ) * 2 ^ e = (m * 2 ^ k : ℕ) * (2 ^ t * 2 ^ t) := by
    rw [even, zpow_add₀ two_ne_zero, zpow_add₀ two_ne_zero, zpow_natCast]
    push_cast
    ring
  rw [exact, Real.sqrt_mul (Nat.cast_nonneg _), Real.sqrt_mul_self (real_two_zpow_pos t).le]

theorem rounds_sqrt (hx : value x = some v) (nonneg : 0 ≤ v) : Rounds √v x.sqrt := by
  rw [sqrt_def]
  rcases value_cases hx with ⟨s, px, rfl⟩ | ⟨s, m, e, hm, px, rfl⟩
  · rw [Rat.cast_zero, Real.sqrt_zero, px]
    exact rounds_zero s
  · cases s with
    | negative =>
      have pos := mantissa_value_pos hm e
      rw [apply_mul_zpow] at nonneg
      simp only at nonneg
      linarith
    | positive =>
      obtain ⟨r, t, acc, X, core, accurate, exponent, exact⟩ := exists_sqrtCore hm e
      have rounds := rounds_roundWithAccuracy .positive accurate exponent
      rw [exact] at rounds
      rw [cast_apply, px]
      simp only [UnpackedFloat.sqrt, core]
      exact rounds

/-! ## Results that are not negative -/

theorem Within.exists_value {k : ℕ} (h : Within k x) : ∃ v, value x = some v ∧ 0 ≤ v := by
  rcases h.cases with rfl | rfl | ⟨m, e, hm, px, -⟩
  · exact ⟨0, value_zero, le_rfl⟩
  · exact ⟨0, value_negZero, le_rfl⟩
  · exact ⟨m * 2 ^ e, by rw [value, px]; rfl, (mantissa_value_pos hm e).le⟩

theorem Within.value_lt {k : ℕ} (h : Within k x) (hx : value x = some v) : v < 2 ^ k := by
  rcases h.tame with rfl | ⟨w, hw, bound⟩
  · cases hx
  · obtain rfl := Option.some_inj.mp (hx.symm.trans hw)
    exact (le_abs_self v).trans_lt bound

/-- What is divided by a number that is at least one stays within its bounds. -/
theorem within_div {k : ℕ} (hx : Within k x) (hy : value y = some w) (one : 1 ≤ w) :
    Within k (x / y) := by
  obtain ⟨v, hv, nonneg⟩ := hx.exists_value
  have rounds := rounds_div hv hy (by linarith)
  refine hx.of_le (rounds.nonneg ?_) (rounds.high x v hv ?_)
  · exact_mod_cast div_nonneg nonneg (by linarith)
  · exact_mod_cast div_le_self nonneg one

/-- The magnitude of a double is a double. -/
theorem exists_abs (hx : value x = some v) : ∃ y, value y = some |v| := by
  rcases abs_choice v with same | flipped
  · exact ⟨x, by rw [same, hx]⟩
  · exact ⟨-x, by rw [flipped, value_neg hx]⟩

/-- What is divided by a number that is at least one stays finite. -/
theorem exists_value_div (hx : value x = some v) (hy : value y = some w) (one : 1 ≤ w) :
    ∃ z, value (x / y) = some z ∧ |z| ≤ |v| := by
  obtain ⟨u, hu⟩ := exists_abs hx
  refine (rounds_div hx hy (by linarith)).exists_value hu ?_
  have smaller : |v / w| ≤ |v| := by
    rw [abs_div, abs_of_pos (by linarith : 0 < w)]
    exact div_le_self (abs_nonneg v) one
  exact_mod_cast smaller

theorem infinity_add_of_value (hx : value x = some v) :
    infinity + x = infinity ∧ x + infinity = infinity := by
  rcases value_cases hx with ⟨s, px, -⟩ | ⟨s, m, e, hm, px, -⟩ <;>
    rw [add_def, add_def, px, parts_infinity] <;> exact ⟨rfl, rfl⟩

/-- Nothing but a negative infinity takes an infinity away. -/
theorem infinity_add (hx : 0 ≤ x) : infinity + x = infinity ∧ x + infinity = infinity := by
  rcases nonneg_cases hx with ⟨v, hv, -⟩ | rfl
  · exact infinity_add_of_value hv
  · decide

/-- A finite double and one that is not negative have a sum that is a number. -/
theorem isNaN_add_nonneg (hx : value x = some v) (hy : 0 ≤ y) : (x + y).isNaN = false := by
  rcases nonneg_cases hy with ⟨w, hw, -⟩ | rfl
  · exact (rounds_add hx hw).number
  · rw [(infinity_add_of_value hx).2]
    exact isNaN_infinity

theorem zero_le_infinity : 0 ≤ infinity := by decide

theorem nonneg_add (hx : 0 ≤ x) (hy : 0 ≤ y) : 0 ≤ x + y := by
  rcases nonneg_cases hx with ⟨v, hv, v_nonneg⟩ | rfl
  · rcases nonneg_cases hy with ⟨w, hw, w_nonneg⟩ | rfl
    · exact (rounds_add hv hw).nonneg (by exact_mod_cast add_nonneg v_nonneg w_nonneg)
    · rw [(infinity_add hx).2]
      exact zero_le_infinity
  · rw [(infinity_add hy).1]
    exact zero_le_infinity

theorem nonneg_mul (hx : value x = some v) (hy : value y = some w) (v_nonneg : 0 ≤ v)
    (w_nonneg : 0 ≤ w) : 0 ≤ x * y :=
  (rounds_mul hx hy).nonneg (by exact_mod_cast mul_nonneg v_nonneg w_nonneg)

theorem nonneg_div (hx : value x = some v) (hy : value y = some w) (v_nonneg : 0 ≤ v)
    (w_pos : 0 < w) : 0 ≤ x / y :=
  (rounds_div hx hy w_pos.ne').nonneg (by exact_mod_cast div_nonneg v_nonneg w_pos.le)

theorem nonneg_sqrt (hx : 0 ≤ x) : 0 ≤ x.sqrt := by
  rcases nonneg_cases hx with ⟨v, hv, v_nonneg⟩ | rfl
  · exact (rounds_sqrt hv v_nonneg).nonneg (Real.sqrt_nonneg _)
  · decide

/-- A sum of what is not negative is at least each of its parts. -/
theorem le_add (hx : 0 ≤ x) (hy : 0 ≤ y) : x ≤ x + y ∧ y ≤ x + y := by
  rcases nonneg_cases hx with ⟨v, hv, v_nonneg⟩ | rfl
  · rcases nonneg_cases hy with ⟨w, hw, w_nonneg⟩ | rfl
    · have sum := rounds_add hv hw
      refine ⟨sum.low x v hv ?_, sum.low y w hw ?_⟩
      · exact_mod_cast le_add_of_nonneg_right w_nonneg
      · exact_mod_cast le_add_of_nonneg_left v_nonneg
    · rw [(infinity_add hx).2]
      exact ⟨le_infinity (numbers_of_le hx).2, le_refl_of_number isNaN_infinity⟩
  · rw [(infinity_add hy).1]
    exact ⟨le_refl_of_number isNaN_infinity, le_infinity (numbers_of_le hy).2⟩

/-! ## Integers -/

/-- An integer that is a double is the double of that integer. -/
theorem ofInt_eq_of_value {k : ℤ} (hx : value x = some (k : ℚ)) (signless : x ≠ negZero) :
    ofInt k = x := by
  have rounds : Rounds k (ofInt k) := by
    have normalized := rounds_normalize k 0
    rw [zpow_zero, ← Int.cast_one, ← Int.cast_mul, Int.mul_one] at normalized
    exact normalized
  have lower : x ≤ ofInt k := rounds.low x k hx (by simp)
  have upper : ofInt k ≤ x := rounds.high x k hx (by simp)
  obtain ⟨v, hv, le, ge⟩ := exists_value_of_le hx hx lower upper
  obtain rfl : v = k := le_antisymm ge le
  exact eq_of_value hv hx (ofInt_ne_negZero k) signless

/-- One more than a positive count, rounded, is at least two. -/
theorem two_le_add_one {n : ℕ} (hx : value x = some (n : ℚ)) (pos : 0 < n) : 2 ≤ x + 1 := by
  refine (rounds_add hx value_one).low 2 2 value_two ?_
  have one : (1 : ℝ) ≤ n := by exact_mod_cast pos
  push_cast
  linarith

/-! ## Results without a sign -/

/-- Parts that are not negative, not even a negative zero or infinity. -/
def UnsignedParts : UnpackedFloat → Prop
  | .infinity .negative | .zero .negative | .finite .negative .. => False
  | _ => True

/-- A double that is not negative, not even a negative zero or infinity. -/
def Unsigned (x : Float) : Prop := UnsignedParts (parts x)

theorem Unsigned.cases (hx : Unsigned x) : parts x = .notANumber ∨ parts x = .infinity .positive ∨
    parts x = .zero .positive ∨ ∃ m e hm, parts x = .finite .positive m e hm := by
  unfold Unsigned at hx
  cases px : parts x with
  | notANumber => exact .inl rfl
  | infinity s =>
    cases s with
    | positive => exact .inr (.inl rfl)
    | negative => rw [px] at hx; cases hx
  | zero s =>
    cases s with
    | positive => exact .inr (.inr (.inl rfl))
    | negative => rw [px] at hx; cases hx
  | finite s m e hm =>
    cases s with
    | positive => exact .inr (.inr (.inr ⟨m, e, hm, rfl⟩))
    | negative => rw [px] at hx; cases hx

theorem Unsigned.ne_negZero (hx : Unsigned x) : x ≠ negZero := by
  rw [ne_negZero_iff]
  intro negative
  rw [Unsigned, negative] at hx
  exact hx

theorem unsigned_of_pos (hx : 0 < x) : Unsigned x := by
  rw [lt_def] at hx
  rw [Unsigned]
  cases px : parts x with
  | notANumber => trivial
  | _ s =>
    rw [px] at hx
    cases s with
    | positive => trivial
    | negative => cases hx

theorem unsigned_ofParts {u : UnpackedFloat} (rounded : Rounded u) (hu : UnsignedParts u) :
    Unsigned (ofParts u) := by
  cases u with
  | finite s m e hm =>
    cases s with
    | positive =>
      rw [Unsigned, parts_ofParts_of_rounded rounded]
      split <;> trivial
    | negative => cases hu
  | _ => rwa [Unsigned, parts_ofParts (by trivial)]

/-- Rounding does not change the sign. -/
theorem unsigned_roundWithAccuracy {M : ℕ} {E : ℤ} {acc : Accuracy} {X : ℝ} (h : Accurate M acc X)
    (he : E ≤ Format.binary64.targetExponent (totalExponent M E)) :
    Unsigned (ofParts (roundWithAccuracy .binary64 .positive M E acc)) := by
  obtain ⟨r, t, eq, nearest⟩ := exists_nearest .positive h he
  rw [eq]
  refine unsigned_ofParts (nearest.rounded_carry .positive) ?_
  unfold carry ofMantissa
  split <;> split <;> trivial

theorem unsigned_mul (hx : Unsigned x) (hy : Unsigned y) : Unsigned (x * y) := by
  rw [mul_def]
  rcases hx.cases with px | px | px | ⟨m, e, hm, px⟩ <;>
    rcases hy.cases with py | py | py | ⟨n, f, hn, py⟩ <;> rw [px, py]
  case inr.inr.inr.inr.inr.inr =>
    exact unsigned_roundWithAccuracy (X := (m * n : ℕ)) rfl (mul_exponent_le px py)
  all_goals exact unsigned_ofParts (by trivial) (by trivial)

theorem unsigned_div (hx : Unsigned x) (hy : Unsigned y) : Unsigned (x / y) := by
  rw [div_def]
  rcases hx.cases with px | px | px | ⟨m, e, hm, px⟩ <;>
    rcases hy.cases with py | py | py | ⟨n, f, hn, py⟩ <;> rw [px, py]
  case inr.inr.inr.inr.inr.inr =>
    obtain ⟨q, u, acc, X, core, accurate, exponent, -⟩ := exists_divCore hm hn e f
    simp only [UnpackedFloat.div, core]
    exact unsigned_roundWithAccuracy accurate exponent
  all_goals exact unsigned_ofParts (by trivial) (by trivial)

theorem unsigned_sqrt (hx : Unsigned x) : Unsigned x.sqrt := by
  rw [sqrt_def]
  rcases hx.cases with px | px | px | ⟨m, e, hm, px⟩ <;> rw [px]
  case inr.inr.inr =>
    obtain ⟨r, t, acc, X, core, accurate, exponent, -⟩ := exists_sqrtCore hm e
    simp only [UnpackedFloat.sqrt, core]
    exact unsigned_roundWithAccuracy accurate exponent
  all_goals exact unsigned_ofParts (by trivial) (by trivial)

end UpperConfidence.Double
