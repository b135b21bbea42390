import UpperConfidence.Proofs.Double.Arithmetic

/-!
# Magnitudes

How large a result can be is bounded in powers of two. Each operation on values
that are not negative adds a little to the power: a carry for the exact result
and one for rounding. As long as the power stays at most 1024 the result is
finite.
-/

namespace UpperConfidence.Double

open Float.Model Float.Model.UnpackedFloat

/-- Parts of a zero, or of a positive value below `2 ^ k`. -/
def PartsWithin (k : Nat) : UnpackedFloat → Prop
  | .zero _ => True
  | .finite s m e _ => s = .positive ∧ totalExponent m e ≤ k
  | _ => False

/-- A zero, or a positive value below `2 ^ k`. -/
def Within (k : Nat) (x : Float) : Prop := PartsWithin k (parts x)

theorem within_zero (k : Nat) : Within k 0 := trivial

theorem within_negZero (k : Nat) : Within k negZero := trivial

theorem Within.isFinite {k : Nat} {x : Float} (h : Within k x) : x.isFinite = true := by
  rw [isFinite_def]
  unfold Within at h
  cases hx : parts x <;> simp_all [PartsWithin, UnpackedFloat.isFinite]

theorem Within.mono {j k : Nat} {x : Float} (h : Within j x) (le : j ≤ k) : Within k x := by
  unfold Within at h ⊢
  cases hx : parts x with
  | finite s m e hm =>
    rw [hx] at h
    exact ⟨h.1, h.2.trans (by omega)⟩
  | _ => simp_all [PartsWithin]

/-! ## Rounding -/

theorem exponent_le_of_totalExponent_le {s : Sign} {m : Nat} {e : Int} {h : 0 < m}
    (rounded : Rounded (.finite s m e h)) (top : totalExponent m e ≤ 1024) : e ≤ 971 := by
  obtain ⟨upper, least, normal | rfl⟩ := rounded
  · simp only [totalExponent, log2_eq_of_normal normal upper] at top
    omega
  · decide

theorem within_ofParts_finite {k : Nat} (hk : k ≤ 1024) {m : Nat} {e : Int} {h : 0 < m}
    (rounded : Rounded (.finite .positive m e h)) (total : totalExponent m e ≤ k) :
    Within k (ofParts (.finite .positive m e h)) := by
  have fits := exponent_le_of_totalExponent_le rounded (total.trans (by omega))
  rw [Within, parts_ofParts_of_rounded rounded, if_pos fits]
  exact ⟨rfl, total⟩

theorem within_roundWithAccuracy {k : Nat} (hk : k + 1 ≤ 1024) {m : Nat} {e : Int} (acc : Accuracy)
    (hm : 0 < m) (he : e ≤ Format.binary64.targetExponent (totalExponent m e))
    (total : totalExponent m e ≤ k) :
    Within (k + 1) (ofParts (roundWithAccuracy .binary64 .positive m e acc)) := by
  rcases roundWithAccuracy_cases .positive acc hm he with
    ⟨eq, -⟩ | ⟨m', e', h, eq, rounded, -, atMost⟩
  · rw [eq]
    exact within_zero _
  · rw [eq]
    exact within_ofParts_finite hk rounded (by omega)

theorem totalExponent_le_of_lt {m k : Nat} (hm : 0 < m) (h : m < 2 ^ k) (e : Int) :
    totalExponent m e ≤ k + e := by
  have := (Nat.log2_lt hm.ne').mpr h
  simp only [totalExponent]
  omega

theorem lt_two_pow_of_totalExponent_le {m k : Nat} {e : Int} (h : totalExponent m e ≤ k + e) :
    m < 2 ^ k := by
  simp only [totalExponent] at h
  exact Nat.lt_log2_self.trans_le (Nat.pow_le_pow_right (by decide) (by omega))

theorem totalExponent_scaled {m : Nat} (hm : 0 < m) {e f : Int} (h : f ≤ e) :
    totalExponent (m * 2 ^ (e - f).toNat) f = totalExponent m e := by
  have := totalExponent_shiftLeft hm e (e - f).toNat
  rwa [show e - ((e - f).toNat : Int) = f by omega] at this

/-! ## Operations -/

theorem Within.cases {k : Nat} {x : Float} (h : Within k x) :
    x = 0 ∨ x = negZero ∨
      ∃ m e hm, parts x = .finite .positive m e hm ∧ totalExponent m e ≤ k := by
  unfold Within at h
  cases px : parts x with
  | notANumber => simp [px, PartsWithin] at h
  | infinity s => simp [px, PartsWithin] at h
  | zero s => cases s with
    | positive => exact .inl (parts_injective px)
    | negative => exact .inr (.inl (parts_injective px))
  | finite s m e hm =>
    rw [px] at h
    obtain ⟨rfl, total⟩ := h
    exact .inr (.inr ⟨m, e, hm, rfl, total⟩)

theorem ne_negZero_of_finite {x : Float} {s : Sign} {m : Nat} {e : Int} {h : 0 < m}
    (hx : parts x = .finite s m e h) : x ≠ negZero := by
  rw [ne_negZero_iff, hx]
  simp

/-- The exact sum of two positive finite values is a positive multiple of the
least double, and rounding is all that remains to be done. -/
theorem add_of_positive {x y : Float} {m n : Nat} {e f : Int} {hm : 0 < m} {hn : 0 < n}
    (px : parts x = .finite .positive m e hm) (py : parts y = .finite .positive n f hn) :
    x + y = ofParts (UnpackedFloat.round .binary64 .positive
      (m * 2 ^ (e - min e f).toNat + n * 2 ^ (f - min e f).toNat) (min e f)) := by
  have pos : 0 < m * 2 ^ (e - min e f).toNat + n * 2 ^ (f - min e f).toNat := by positivity
  rw [add_def, px, py]
  simp only [UnpackedFloat.add, decreaseExponent, Sign.apply, Nat.shiftLeft_eq,
    UnpackedFloat.normalize]
  norm_cast
  rw [Int.compare_eq_gt.mpr (by exact_mod_cast pos)]

theorem within_round {k : Nat} (hk : k + 1 ≤ 1024) {m : Nat} {e : Int} (hm : 0 < m)
    (he : -1074 ≤ e) (total : totalExponent m e ≤ k) :
    Within (k + 1) (ofParts (UnpackedFloat.round .binary64 .positive m e)) := by
  obtain ⟨m', e', h, eq, rounded, -, atMost⟩ := round_cases .positive hm he
  rw [eq]
  exact within_ofParts_finite hk rounded (by omega)

theorem within_add {k : Nat} (hk : k + 2 ≤ 1024) {x y : Float} (hx : Within k x)
    (hy : Within k y) : Within (k + 2) (x + y) := by
  rcases hx.cases with rfl | rfl | ⟨m, e, hm, px, tx⟩
  · by_cases h : y = negZero
    · rw [h, add_negZero]
      exact within_zero _
    · rw [zero_add_of_ne h]
      exact hy.mono (by omega)
  · rw [negZero_add]
    exact hy.mono (by omega)
  · rcases hy.cases with rfl | rfl | ⟨n, f, hn, py, ty⟩
    · rw [add_zero_of_ne (ne_negZero_of_finite px)]
      exact hx.mono (by omega)
    · rw [add_negZero]
      exact hx.mono (by omega)
    · have := least_le_exponent px
      have := least_le_exponent py
      -- both summands, brought to the smaller exponent, are below the same power of two
      obtain ⟨j, hj⟩ : ∃ j : Nat, (k : Int) = j + min e f := by
        have : 1 + e ≤ k := le_trans (by simp [totalExponent]) tx
        exact ⟨(k - min e f).toNat, by omega⟩
      have first : m * 2 ^ (e - min e f).toNat < 2 ^ j := by
        apply lt_two_pow_of_totalExponent_le (e := min e f)
        rw [totalExponent_scaled hm (min_le_left e f)]
        omega
      have second : n * 2 ^ (f - min e f).toNat < 2 ^ j := by
        apply lt_two_pow_of_totalExponent_le (e := min e f)
        rw [totalExponent_scaled hn (min_le_right e f)]
        omega
      rw [add_of_positive px py]
      refine within_round (k := k + 1) hk (by positivity) (by omega) ?_
      have := totalExponent_le_of_lt (k := j + 1) (by positivity)
        (by rw [pow_succ]; omega :
          m * 2 ^ (e - min e f).toNat + n * 2 ^ (f - min e f).toNat < 2 ^ (j + 1)) (min e f)
      push_cast at this ⊢
      omega

theorem log2_mul_le {m n : Nat} (hm : 0 < m) (hn : 0 < n) :
    m.log2 + n.log2 ≤ (m * n).log2 ∧ (m * n).log2 ≤ m.log2 + n.log2 + 1 := by
  have lower := Nat.mul_le_mul (Nat.log2_self_le hm.ne') (Nat.log2_self_le hn.ne')
  have upper := Nat.mul_lt_mul_of_lt_of_lt (Nat.lt_log2_self (n := m)) (Nat.lt_log2_self (n := n))
  rw [← pow_add] at lower upper
  have pos : m * n ≠ 0 := by positivity
  refine ⟨(Nat.le_log2 pos).mpr lower, ?_⟩
  have := (Nat.log2_lt pos).mpr upper
  omega

theorem rounded_of_parts {x : Float} {s : Sign} {m : Nat} {e : Int} {h : 0 < m}
    (px : parts x = .finite s m e h) : Rounded (.finite s m e h) := by
  have := regular_parts x
  rw [px] at this
  exact this.1

theorem mul_exponent_le {x y : Float} {s t : Sign} {m n : Nat} {e f : Int} {hm : 0 < m}
    {hn : 0 < n} (px : parts x = .finite s m e hm) (py : parts y = .finite t n f hn) :
    e + f ≤ Format.binary64.targetExponent (totalExponent (m * n) (e + f)) := by
  obtain ⟨mUpper, -, mNormal⟩ := rounded_of_parts px
  obtain ⟨nUpper, -, nNormal⟩ := rounded_of_parts py
  have bits := (log2_mul_le hm hn).1
  rw [targetExponent_binary64]
  simp only [totalExponent]
  rcases mNormal with normal | rfl
  · rw [log2_eq_of_normal normal mUpper] at bits
    omega
  · rcases nNormal with normal | rfl
    · rw [log2_eq_of_normal normal nUpper] at bits
      omega
    · omega

theorem within_mul {j k : Nat} (hk : j + k + 1 ≤ 1024) {x y : Float} (hx : Within j x)
    (hy : Within k y) : Within (j + k + 1) (x * y) := by
  have zero (s : Sign) : Within (j + k + 1) (ofParts (.zero s)) := by
    rw [Within, parts_ofParts (u := .zero s) trivial]
    trivial
  rw [mul_def]
  rw [Within] at hx hy
  cases px : parts x with
  | notANumber => simp [px, PartsWithin] at hx
  | infinity s => simp [px, PartsWithin] at hx
  | zero s =>
    cases py : parts y with
    | notANumber => simp [py, PartsWithin] at hy
    | infinity t => simp [py, PartsWithin] at hy
    | _ => exact zero _
  | finite s m e hm =>
    cases py : parts y with
    | notANumber => simp [py, PartsWithin] at hy
    | infinity t => simp [py, PartsWithin] at hy
    | zero t => exact zero _
    | finite t n f hn =>
      rw [px] at hx
      rw [py] at hy
      obtain ⟨rfl, tx⟩ := hx
      obtain ⟨rfl, ty⟩ := hy
      have bits := (log2_mul_le hm hn).2
      have total : totalExponent (m * n) (e + f) ≤ (j + k : Nat) := by
        simp only [totalExponent] at tx ty ⊢
        omega
      exact within_roundWithAccuracy hk .exact (by positivity) (mul_exponent_le px py) total

/-! ## Square roots -/

theorem log2_sqrt {n : Nat} (hn : 0 < n) :
    2 * n.sqrt.log2 ≤ n.log2 ∧ n.log2 ≤ 2 * n.sqrt.log2 + 1 := by
  have root : 0 < n.sqrt := Nat.sqrt_pos.mpr hn
  constructor
  · rw [Nat.le_log2 hn.ne', Nat.mul_comm 2, pow_mul]
    calc (2 ^ n.sqrt.log2) ^ 2 ≤ n.sqrt ^ 2 := Nat.pow_le_pow_left (Nat.log2_self_le root.ne') 2
      _ ≤ n := Nat.sqrt_le' n
  · rw [← Nat.lt_succ_iff, Nat.log2_lt hn.ne']
    calc n < (n.sqrt + 1) ^ 2 := Nat.lt_succ_sqrt' n
      _ ≤ (2 ^ (n.sqrt.log2 + 1)) ^ 2 := Nat.pow_le_pow_left Nat.lt_log2_self 2
      _ = 2 ^ (2 * n.sqrt.log2 + 1).succ := by
        rw [← pow_mul]
        congr 1
        omega

/-- The whole part of the exact root has half the magnitude, and enough bits to round. -/
theorem sqrtCore_spec {m : Nat} (hm : 0 < m) (e : Int) :
    ∃ r t acc, sqrtCore .binary64 m e = (r, t, acc) ∧ 0 < r ∧
      t ≤ Format.binary64.targetExponent (totalExponent r t) ∧
      2 * totalExponent r t ≤ totalExponent m e + 1 := by
  obtain ⟨t, ht⟩ : ∃ t, min (e.ediv 2) (Format.binary64.targetExponent
    ((totalExponent m e + 1).ediv 2)) = t := ⟨_, rfl⟩
  obtain ⟨k, hk⟩ : ∃ k, (e - 2 * t).toNat = k := ⟨_, rfl⟩
  have scaled : 0 < m * 2 ^ k := by positivity
  obtain ⟨lower, upper⟩ := log2_sqrt scaled
  rw [log2_mul_two_pow hm] at lower upper
  have even : 2 * t ≤ e := by
    have : t ≤ e / 2 := ht ▸ min_le_left _ _
    omega
  have bits : (k : Int) = e - 2 * t := by omega
  have core : (sqrtCore .binary64 m e).1 = (m * 2 ^ k).sqrt ∧ (sqrtCore .binary64 m e).2.1 = t := by
    simp only [sqrtCore, ht, hk, Nat.shiftLeft_eq]
    trivial
  refine ⟨(m * 2 ^ k).sqrt, t, (sqrtCore .binary64 m e).2.2, ?_, Nat.sqrt_pos.mpr scaled, ?_, ?_⟩
  · rw [← core.1, ← core.2]
  · have half : (totalExponent m e + 1) / 2 ≤ totalExponent (m * 2 ^ k).sqrt t := by
      simp only [totalExponent]
      omega
    have target : t ≤ Format.binary64.targetExponent ((totalExponent m e + 1) / 2) :=
      ht ▸ min_le_right _ _
    rw [targetExponent_binary64] at target ⊢
    omega
  · simp only [totalExponent]
    omega

theorem within_sqrt {k : Nat} (hk : k ≤ 1000) {x : Float} (hx : Within k x) :
    Within ((k + 1) / 2 + 1) x.sqrt := by
  rw [sqrt_def]
  rcases hx.cases with rfl | rfl | ⟨m, e, hm, px, tx⟩
  · exact within_zero _
  · exact within_negZero _
  · obtain ⟨r, t, acc, eq, hr, exponent, total⟩ := sqrtCore_spec hm e
    rw [px]
    simp only [UnpackedFloat.sqrt, eq]
    exact within_roundWithAccuracy (by omega) acc hr exponent (by omega)

/-! ## Order -/

/-- Positive doubles are ordered by exponent first, since the mantissa is as long as it can be. -/
theorem le_iff_of_positive {x y : Float} {m n : Nat} {e f : Int} {hm : 0 < m} {hn : 0 < n}
    (px : parts x = .finite .positive m e hm) (py : parts y = .finite .positive n f hn) :
    x ≤ y ↔ e < f ∨ e = f ∧ m ≤ n := by
  rw [le_def, px, py]
  simp only [UnpackedFloat.le, UnpackedFloat.compare, Option.any_some, Ordering.isLE_then_iff_or,
    Int.compare_eq_lt, Int.compare_eq_eq, Nat.isLE_compare]

theorem totalExponent_le_of_le {x y : Float} {m n : Nat} {e f : Int} {hm : 0 < m} {hn : 0 < n}
    (px : parts x = .finite .positive m e hm) (py : parts y = .finite .positive n f hn)
    (h : x ≤ y) : totalExponent m e ≤ totalExponent n f := by
  obtain ⟨mUpper, mLeast, -⟩ := rounded_of_parts px
  obtain ⟨nUpper, -, nNormal⟩ := rounded_of_parts py
  simp only [totalExponent]
  rcases (le_iff_of_positive px py).mp h with lt | ⟨rfl, le⟩
  · have bits := (Nat.log2_lt hm.ne').mpr mUpper
    have := log2_eq_of_normal (m := n) (by omega) nUpper
    omega
  · have := log2_mono le
    omega

/-- What lies between zero and a bounded value is bounded. -/
theorem Within.of_le {k : Nat} {x y : Float} (hx : Within k x) (nonneg : 0 ≤ y) (le : y ≤ x) :
    Within k y := by
  rw [le_def, parts_zero] at nonneg
  rw [Within]
  cases py : parts y with
  | notANumber => simp [py, UnpackedFloat.le, UnpackedFloat.compare] at nonneg
  | zero s => trivial
  | infinity s =>
    rw [le_def, py] at le
    rcases hx.cases with rfl | rfl | ⟨m, e, hm, px, -⟩
    · cases s <;> simp_all [UnpackedFloat.le, UnpackedFloat.compare]
    · cases s <;> simp_all [UnpackedFloat.le, UnpackedFloat.compare]
    · cases s <;> simp_all [UnpackedFloat.le, UnpackedFloat.compare]
  | finite s n f hn =>
    cases s with
    | negative => simp [py, UnpackedFloat.le, UnpackedFloat.compare] at nonneg
    | positive =>
      rcases hx.cases with rfl | rfl | ⟨m, e, hm, px, total⟩
      · simp [le_def, py, UnpackedFloat.le, UnpackedFloat.compare] at le
      · simp [le_def, py, UnpackedFloat.le, UnpackedFloat.compare] at le
      · exact ⟨rfl, (totalExponent_le_of_le py px le).trans total⟩

/-- Rounding may lose a summand, but it does not bring a sum below one. -/
theorem one_le_add_one {k : Nat} {x : Float} (hx : Within k x) : 1 ≤ x + 1 := by
  rcases hx.cases with rfl | rfl | ⟨m, e, hm, px, -⟩
  · decide
  · decide
  · have least := least_le_exponent px
    obtain ⟨scaled, hs⟩ : ∃ scaled, m * 2 ^ (e - min e (-52)).toNat = scaled := ⟨_, rfl⟩
    obtain ⟨unit, hu⟩ : ∃ unit, 2 ^ 52 * 2 ^ (-52 - min e (-52)).toNat = unit := ⟨_, rfl⟩
    have pos : 0 < scaled + unit := by
      rw [← hs]
      positivity
    obtain ⟨n, f, hn, eq, rounded, atLeast, -⟩ :=
      round_cases .positive pos (e := min e (-52)) (by omega)
    have sum : x + 1 = ofParts (.finite .positive n f hn) := by
      rw [add_of_positive px parts_one, hs, hu, eq]
    have total : 1 ≤ totalExponent n f := by
      have one := totalExponent_scaled (m := 2 ^ 52) (by decide) (min_le_right e (-52))
      have := log2_mono (Nat.le_add_left unit scaled)
      rw [hu] at one
      simp only [totalExponent, Nat.log2_two_pow] at one atLeast ⊢
      omega
    have parts_sum := parts_ofParts_of_rounded rounded
    rw [← sum] at parts_sum
    obtain ⟨upper, -, normal⟩ := rounded
    have bits := (Nat.log2_lt hn.ne').mpr upper
    simp only [totalExponent] at total
    split at parts_sum
    · rw [le_iff_of_positive parts_one parts_sum]
      omega
    · rw [le_def, parts_one, parts_sum]
      rfl

theorem zero_le_of_one_le {x : Float} (h : 1 ≤ x) : 0 ≤ x := by
  rw [le_def, parts_one] at h
  rw [le_def, parts_zero]
  cases hx : parts x with
  | notANumber => simp [hx, UnpackedFloat.le, UnpackedFloat.compare] at h
  | zero s => rfl
  | infinity s => cases s <;> simp_all [UnpackedFloat.le, UnpackedFloat.compare]
  | finite s m e hm => cases s <;> simp_all [UnpackedFloat.le, UnpackedFloat.compare]

/-! ## Counts -/

/-- The double of a count is not negative, and it is at most `2 ^ 64`. -/
theorem within_toFloat (n : UInt64) : Within 65 n.toFloat := by
  have bound := n.toNat_lt
  change Within 65 (ofParts (UnpackedFloat.normalize .binary64 n.toNat 0 .positive))
  rcases Nat.eq_zero_or_pos n.toNat with zero | pos
  · rw [zero]
    exact within_zero _
  · rw [UnpackedFloat.normalize, Int.compare_eq_gt.mpr (by exact_mod_cast pos)]
    exact within_round (k := 64) (by decide) pos (by decide) (totalExponent_le_of_lt pos bound 0)

end UpperConfidence.Double
