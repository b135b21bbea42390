import UpperConfidence.Proofs.Double.Parts

/-!
# Rounding

The exact result of an operation is a mantissa of any length, together with
what lies beyond its last bit. Rounding shortens it to 53 bits. A result that
fits is not changed, a result that does not keeps its order of magnitude, up to
one carry, and only results below the least double become zero.
-/

namespace UpperConfidence.Double

open Float.Model Float.Model.UnpackedFloat

theorem targetExponent_binary64 (total : Int) :
    Format.binary64.targetExponent total = max (total - 53) (-1074) := rfl

/-! ## Shifting -/

theorem mantissa_shiftRight (em : ExtendedMantissa) (k : Nat) :
    (em >>> k).mantissa = em.mantissa / 2 ^ k := by
  induction k with
  | zero => simp [HShiftRight.hShiftRight, Nat.repeat]
  | succ k ih =>
    change (em >>> k).mantissa / 2 = _
    rw [ih, Nat.div_div_eq_div_mul, pow_succ]

@[simp] theorem shiftRight_zero (em : ExtendedMantissa) : em >>> (0 : Nat) = em := rfl

@[simp] theorem mantissa_ofMantissaAndAccuracy (m : Nat) (acc : Accuracy) :
    (ExtendedMantissa.ofMantissaAndAccuracy m acc).mantissa = m := by
  rcases acc with _ | ⟨_ | _ | _⟩ <;> rfl

@[simp] theorem roundedMantissa_exact (m : Nat) :
    (ExtendedMantissa.ofMantissaAndAccuracy m .exact).roundedMantissa = m := rfl

/-- Zeros shifted out leave no trace. -/
theorem shiftRight_exact (m k : Nat) :
    ExtendedMantissa.ofMantissaAndAccuracy (m * 2 ^ k) .exact >>> k =
      ExtendedMantissa.ofMantissaAndAccuracy m .exact := by
  induction k generalizing m with
  | zero => simp
  | succ k ih =>
    change ExtendedMantissa.shiftRightOne
      (ExtendedMantissa.ofMantissaAndAccuracy (m * 2 ^ (k + 1)) .exact >>> k) = _
    rw [pow_succ', ← mul_assoc, ih]
    simp [ExtendedMantissa.shiftRightOne, ExtendedMantissa.ofMantissaAndAccuracy]

theorem roundedMantissa_near (em : ExtendedMantissa) :
    em.mantissa ≤ em.roundedMantissa ∧ em.roundedMantissa ≤ em.mantissa + 1 := by
  obtain ⟨m, round, sticky⟩ := em
  cases round <;> cases sticky <;>
    simp [ExtendedMantissa.roundedMantissa, ExtendedMantissa.accuracy,
      Accuracy.roundToNearestEven]
  omega

/-! ## Orders of magnitude -/

theorem log2_mul_two_pow {m : Nat} (hm : 0 < m) (k : Nat) : (m * 2 ^ k).log2 = m.log2 + k := by
  induction k with
  | zero => simp
  | succ k ih =>
    have pos : m * 2 ^ k ≠ 0 := by positivity
    rw [pow_succ', mul_left_comm, Nat.log2_two_mul pos, ih, add_assoc]

theorem totalExponent_shiftLeft {m : Nat} (hm : 0 < m) (e : Int) (k : Nat) :
    totalExponent (m * 2 ^ k) (e - k) = totalExponent m e := by
  simp only [totalExponent, log2_mul_two_pow hm]
  push_cast
  ring

theorem log2_mono {m n : Nat} (h : m ≤ n) : m.log2 ≤ n.log2 := by
  simpa only [Nat.log2_eq_log_two] using Nat.log_mono_right h

theorem log2_succ_le (n : Nat) : (n + 1).log2 ≤ n.log2 + 1 := by
  have := Nat.lt_log2_self (n := n)
  have : n + 1 < 2 ^ (n.log2 + 2) := by rw [pow_succ]; omega
  have := (Nat.log2_lt n.add_one_ne_zero).mpr this
  omega

/-- The whole part of a mantissa with all but its first 53 bits behind the point. -/
theorem quotient_normal {m k : Nat} (hm : 0 < m) (hk : m.log2 = 52 + k) :
    2 ^ 52 ≤ m / 2 ^ k ∧ m / 2 ^ k < 2 ^ 53 := by
  have lower := Nat.log2_self_le hm.ne'
  have upper := Nat.lt_log2_self (n := m)
  rw [hk] at lower upper
  constructor
  · rw [Nat.le_div_iff_mul_le (by positivity), ← pow_add]
    exact lower
  · rw [Nat.div_lt_iff_lt_mul (by positivity), ← pow_add]
    convert upper using 2
    omega

theorem log2_quotient {m k : Nat} (hm : 0 < m) (hk : k ≤ m.log2) :
    (m / 2 ^ k).log2 = m.log2 - k := by
  have lower := Nat.log2_self_le hm.ne'
  have upper := Nat.lt_log2_self (n := m)
  have pos : m / 2 ^ k ≠ 0 := by
    have : 2 ^ k ≤ m := (Nat.pow_le_pow_right (by decide) hk).trans lower
    exact (Nat.div_pos this (by positivity)).ne'
  rw [Nat.log2_eq_iff pos, Nat.le_div_iff_mul_le (by positivity),
    Nat.div_lt_iff_lt_mul (by positivity), ← pow_add, ← pow_add]
  exact ⟨by convert lower using 2; omega, by convert upper using 2; omega⟩

/-! ## Rounding to parts -/

/-- The parts with a mantissa that may be zero. -/
def ofMantissa (s : Sign) (m : Nat) (e : Int) : UnpackedFloat :=
  if h : m = 0 then .zero s else .finite s m e (Nat.pos_of_ne_zero h)

/-- A rounded mantissa as parts. A carry into the 54th bit moves the exponent. -/
def carry (s : Sign) (r : Nat) (t : Int) : UnpackedFloat :=
  if r = 2 ^ 53 then ofMantissa s (2 ^ 52) (t + 1) else ofMantissa s r t

theorem ofMantissa_of_pos {m : Nat} (hm : 0 < m) (s : Sign) (e : Int) :
    ofMantissa s m e = .finite s m e hm := dif_neg hm.ne'

theorem shiftToTargetExponent_of_lt {r : Nat} {t : Int} (hr : r < 2 ^ 53) (ht : -1074 ≤ t) :
    shiftToTargetExponent .binary64 r t .exact = (.ofMantissaAndAccuracy r .exact, t) := by
  have bits : r.log2 ≤ 52 := by
    rcases Nat.eq_zero_or_pos r with rfl | pos
    · simp
    · have := (Nat.log2_lt pos.ne').mpr hr
      omega
  have amount : (Format.binary64.targetExponent (totalExponent r t) - t).toNat = 0 := by
    rw [targetExponent_binary64]
    simp only [totalExponent]
    omega
  simp [shiftToTargetExponent, shiftToExponent, amount]

theorem shiftToTargetExponent_carry {t : Int} (ht : -1074 ≤ t) :
    shiftToTargetExponent .binary64 (2 ^ 53) t .exact =
      (.ofMantissaAndAccuracy (2 ^ 52) .exact, t + 1) := by
  have amount : (Format.binary64.targetExponent (totalExponent (2 ^ 53) t) - t).toNat = 1 := by
    rw [targetExponent_binary64]
    simp only [totalExponent, Nat.log2_two_pow]
    omega
  simp only [shiftToTargetExponent, shiftToExponent, amount]
  rw [show 2 ^ 53 = 2 ^ 52 * 2 ^ 1 by norm_num, shiftRight_exact]
  simp

/-- One rounding step: shift to the target exponent, round, and carry. -/
theorem roundWithAccuracy_eq_carry (s : Sign) {m : Nat} {e : Int} (acc : Accuracy) {t : Int}
    (ht : Format.binary64.targetExponent (totalExponent m e) = t) (he : e ≤ t) {r : Nat}
    (hr : (ExtendedMantissa.ofMantissaAndAccuracy m acc >>> (t - e).toNat).roundedMantissa = r)
    (fits : r ≤ 2 ^ 53) :
    roundWithAccuracy .binary64 s m e acc = carry s r t := by
  have least : -1074 ≤ t := by
    rw [← ht, targetExponent_binary64]
    omega
  have first : shiftToTargetExponent .binary64 m e acc =
      (ExtendedMantissa.ofMantissaAndAccuracy m acc >>> (t - e).toNat, t) := by
    simp only [shiftToTargetExponent, shiftToExponent, ht]
    congr 1
    omega
  have second : roundWithAccuracy .binary64 s m e acc =
      ofMantissa s (shiftToTargetExponent .binary64 r t .exact).1.mantissa
        (shiftToTargetExponent .binary64 r t .exact).2 := by
    subst hr
    unfold roundWithAccuracy
    rw [first]
    rfl
  rw [second]
  rcases fits.lt_or_eq with small | rfl
  · rw [shiftToTargetExponent_of_lt small least]
    rw [carry, if_neg small.ne]
    rfl
  · rw [shiftToTargetExponent_carry least]
    rfl

/-- A mantissa that fits is not changed by rounding, however many zeros follow it. -/
theorem roundWithAccuracy_exact (s : Sign) {m : Nat} {e : Int} (hm : 0 < m)
    (fits : Rounded (.finite s m e hm)) (k : Nat) :
    roundWithAccuracy .binary64 s (m * 2 ^ k) (e - k) .exact = .finite s m e hm := by
  obtain ⟨upper, least, normal⟩ := fits
  have target : Format.binary64.targetExponent (totalExponent (m * 2 ^ k) (e - k)) = e := by
    rw [totalExponent_shiftLeft hm, targetExponent_binary64]
    simp only [totalExponent]
    rcases normal with normal | rfl
    · rw [log2_eq_of_normal normal upper]
      omega
    · have := (Nat.log2_lt hm.ne').mpr upper
      omega
  have shift : (e - (e - (k : Int))).toNat = k := by omega
  rw [roundWithAccuracy_eq_carry s .exact target (by omega)
    (by rw [shift, shiftRight_exact, roundedMantissa_exact]) upper.le]
  rw [carry, if_neg upper.ne, ofMantissa_of_pos hm]

/-- Rounding keeps the order of magnitude up to one carry, and only a result
below the least double becomes zero. -/
theorem roundWithAccuracy_cases (s : Sign) {m : Nat} {e : Int} (acc : Accuracy) (hm : 0 < m)
    (he : e ≤ Format.binary64.targetExponent (totalExponent m e)) :
    (roundWithAccuracy .binary64 s m e acc = .zero s ∧ totalExponent m e < -1073) ∨
    ∃ m' e' h, roundWithAccuracy .binary64 s m e acc = .finite s m' e' h ∧
      Rounded (.finite s m' e' h) ∧ totalExponent m e ≤ totalExponent m' e' ∧
      totalExponent m' e' ≤ max (totalExponent m e + 1) (-1073) := by
  obtain ⟨t, ht⟩ : ∃ t, Format.binary64.targetExponent (totalExponent m e) = t := ⟨_, rfl⟩
  obtain ⟨k, hk⟩ : ∃ k, (t - e).toNat = k := ⟨_, rfl⟩
  obtain ⟨r, hr⟩ : ∃ r, (ExtendedMantissa.ofMantissaAndAccuracy m acc >>> k).roundedMantissa = r :=
    ⟨_, rfl⟩
  rw [ht] at he
  obtain ⟨lower, upper⟩ : m / 2 ^ k ≤ r ∧ r ≤ m / 2 ^ k + 1 := by
    have := roundedMantissa_near (ExtendedMantissa.ofMantissaAndAccuracy m acc >>> k)
    rwa [hr, mantissa_shiftRight, mantissa_ofMantissaAndAccuracy] at this
  have step (fits : r ≤ 2 ^ 53) : roundWithAccuracy .binary64 s m e acc = carry s r t :=
    roundWithAccuracy_eq_carry s acc ht he (by rw [hk]; exact hr) fits
  rw [targetExponent_binary64] at ht
  simp only [totalExponent] at ht ⊢
  by_cases normal : -1074 ≤ (m.log2 : Int) + 1 + e - 53
  · -- the quotient has 53 bits
    obtain ⟨low, high⟩ := quotient_normal (m := m) (k := k) hm (by omega)
    right
    rw [step (by omega), carry]
    split
    · refine ⟨2 ^ 52, t + 1, by decide, rfl, ⟨by decide, by omega, .inl le_rfl⟩, ?_⟩
      rw [Nat.log2_two_pow]
      omega
    · rw [ofMantissa_of_pos (by omega : 0 < r)]
      refine ⟨r, t, by omega, rfl, ⟨by omega, by omega, .inl (by omega)⟩, ?_⟩
      rw [log2_eq_of_normal (m := r) (by omega) (by omega)]
      omega
  · -- the exponent is the least one and the quotient is shorter
    obtain rfl : t = -1074 := by omega
    by_cases long : k ≤ m.log2
    · have bits := log2_quotient hm long
      have pos : 0 < m / 2 ^ k := by
        have : 2 ^ k ≤ m := (Nat.le_log2 hm.ne').mp long
        exact Nat.div_pos this (by positivity)
      have small : m / 2 ^ k < 2 ^ 52 := (Nat.log2_lt pos.ne').mp (by omega)
      have atLeast := log2_mono lower
      have atMost := (log2_mono upper).trans (log2_succ_le _)
      right
      rw [step (by omega), carry, if_neg (by omega), ofMantissa_of_pos (by omega : 0 < r)]
      exact ⟨r, -1074, by omega, rfl, ⟨by omega, le_rfl, .inr rfl⟩, by omega, by omega⟩
    · have none : m / 2 ^ k = 0 := Nat.div_eq_of_lt ((Nat.log2_lt hm.ne').mp (not_le.mp long))
      rw [step (by omega), carry, if_neg (by omega)]
      rcases (by omega : r = 0 ∨ r = 1) with rfl | rfl
      · exact .inl ⟨rfl, by omega⟩
      · refine .inr ⟨1, -1074, by decide, rfl, ⟨by decide, le_rfl, .inr rfl⟩, ?_⟩
        rw [show Nat.log2 1 = 0 from rfl]
        omega

/-- An exact result that is a multiple of the least double does not become zero. -/
theorem round_cases (s : Sign) {m : Nat} {e : Int} (hm : 0 < m) (he : -1074 ≤ e) :
    ∃ m' e' h, UnpackedFloat.round .binary64 s m e = .finite s m' e' h ∧
      Rounded (.finite s m' e' h) ∧ totalExponent m e ≤ totalExponent m' e' ∧
      totalExponent m' e' ≤ totalExponent m e + 1 := by
  obtain ⟨k, hk⟩ : ∃ k, (e - Format.binary64.targetExponent (totalExponent m e)).toNat = k :=
    ⟨_, rfl⟩
  have total : totalExponent (m * 2 ^ k) (e - k) = totalExponent m e :=
    totalExponent_shiftLeft hm e k
  have least : -1073 ≤ totalExponent m e := by
    simp only [totalExponent]
    omega
  have unfolded : UnpackedFloat.round .binary64 s m e =
      roundWithAccuracy .binary64 s (m * 2 ^ k) (e - k) .exact := by
    simp only [UnpackedFloat.round, decreaseExponent, hk, Nat.shiftLeft_eq]
  rw [unfolded]
  rcases roundWithAccuracy_cases s (m := m * 2 ^ k) (e := e - k) .exact (by positivity)
    (by rw [total]; omega) with ⟨-, low⟩ | ⟨m', e', h, eq, rounded, atLeast, atMost⟩
  · omega
  · exact ⟨m', e', h, eq, rounded, by omega, by omega⟩

/-- Parts whose exponent is too large make an infinity. -/
theorem parts_ofParts_of_rounded {s : Sign} {m : Nat} {e : Int} {h : 0 < m}
    (rounded : Rounded (.finite s m e h)) :
    parts (ofParts (.finite s m e h)) = if e ≤ 971 then .finite s m e h else .infinity s := by
  split
  · rename_i fits
    exact parts_ofParts ⟨rounded, fits⟩
  · have same : ofParts (.finite s m e h) = ofParts (.infinity s) := by
      simp only [ofParts, Float.Model.pack, UnpackedFloat.pack, exponentBias_binary64, toNat_biased]
      simp only [if_pos (show 2 ^ 11 ≤ (e + 1075).toNat + 1 by omega)]
    rw [same, parts_ofParts (u := .infinity s) trivial]

end UpperConfidence.Double
