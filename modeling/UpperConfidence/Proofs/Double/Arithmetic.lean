import UpperConfidence.Proofs.Double.Rounding
import UpperConfidence.Score.Basic

/-!
# Exact laws of arithmetic

Doubles with rounding have few laws that hold for every value, and those few
carry much of the reasoning about totals and masks. Zero is neutral except for
its sign: a sum is a negative zero only if both operands are. One is neutral.
What is not a number stays so, and zero times a value shows whether the value is
finite.
-/

namespace UpperConfidence.Double

open Float.Model Float.Model.UnpackedFloat

/-- The zero with a negative sign. -/
def negZero : Float := -0

/-- The value that is not a number. -/
def nan : Float := 0 / 0

/-! ## Parts of constants -/

@[simp] theorem parts_zero : parts 0 = .zero .positive := rfl

@[simp] theorem parts_negZero : parts negZero = .zero .negative := rfl

@[simp] theorem parts_one : parts 1 = .finite .positive (2 ^ 52) (-52) (by decide) := rfl

@[simp] theorem parts_two : parts 2 = .finite .positive (2 ^ 52) (-51) (by decide) := rfl

@[simp] theorem parts_nan : parts nan = .notANumber := rfl

@[simp] theorem parts_infinity : parts infinity = .infinity .positive := rfl

theorem ne_negZero_iff {x : Float} : x ≠ negZero ↔ parts x ≠ .zero .negative :=
  ⟨fun h hp => h (parts_injective hp), fun h hx => h (by rw [hx, parts_negZero])⟩

/-! ## Operations on parts -/

theorem add_def (x y : Float) : x + y = ofParts (.add .binary64 (parts x) (parts y)) := rfl

theorem sub_def (x y : Float) : x - y = ofParts (.sub .binary64 (parts x) (parts y)) := rfl

theorem mul_def (x y : Float) : x * y = ofParts (.mul .binary64 (parts x) (parts y)) := rfl

theorem div_def (x y : Float) : x / y = ofParts (.div .binary64 (parts x) (parts y)) := rfl

theorem sqrt_def (x : Float) : x.sqrt = ofParts (.sqrt .binary64 (parts x)) := rfl

theorem isFinite_def (x : Float) : x.isFinite = (parts x).isFinite := rfl

theorem le_def (x y : Float) : x ≤ y ↔ (parts x).le (parts y) = true :=
  decide_eq_true_iff

/-! ## No number -/

@[simp] theorem nan_add (x : Float) : nan + x = nan := by
  rw [add_def, parts_nan]
  rfl

@[simp] theorem add_nan (x : Float) : x + nan = nan := by
  rw [add_def, parts_nan]
  cases parts x <;> rfl

@[simp] theorem nan_sub (x : Float) : nan - x = nan := by
  rw [sub_def, parts_nan]
  rfl

@[simp] theorem sub_nan (x : Float) : x - nan = nan := by
  rw [sub_def, parts_nan]
  cases parts x <;> rfl

@[simp] theorem nan_mul (x : Float) : nan * x = nan := by
  rw [mul_def, parts_nan]
  rfl

@[simp] theorem mul_nan (x : Float) : x * nan = nan := by
  rw [mul_def, parts_nan]
  cases parts x <;> rfl

@[simp] theorem nan_div (x : Float) : nan / x = nan := by
  rw [div_def, parts_nan]
  rfl

@[simp] theorem div_nan (x : Float) : x / nan = nan := by
  rw [div_def, parts_nan]
  cases parts x <;> rfl

@[simp] theorem sqrt_nan : nan.sqrt = nan := rfl

/-! ## Adding zero -/

theorem add_zero_of_ne {x : Float} (hx : x ≠ negZero) : x + 0 = x := by
  rw [ne_negZero_iff] at hx
  have same : UnpackedFloat.add .binary64 (parts x) (.zero .positive) = parts x := by
    cases h : parts x with
    | zero s => cases s with
      | positive => rfl
      | negative => exact absurd h hx
    | _ => rfl
  rw [add_def, parts_zero, same, ofParts_parts]

theorem zero_add_of_ne {x : Float} (hx : x ≠ negZero) : 0 + x = x := by
  rw [ne_negZero_iff] at hx
  have same : UnpackedFloat.add .binary64 (.zero .positive) (parts x) = parts x := by
    cases h : parts x with
    | zero s => cases s with
      | positive => rfl
      | negative => exact absurd h hx
    | _ => rfl
  rw [add_def, parts_zero, same, ofParts_parts]

theorem add_negZero (x : Float) : x + negZero = x := by
  have same : UnpackedFloat.add .binary64 (parts x) (.zero .negative) = parts x := by
    cases parts x with
    | zero s => cases s <;> rfl
    | _ => rfl
  rw [add_def, parts_negZero, same, ofParts_parts]

theorem negZero_add (x : Float) : negZero + x = x := by
  have same : UnpackedFloat.add .binary64 (.zero .negative) (parts x) = parts x := by
    cases parts x with
    | zero s => cases s <;> rfl
    | _ => rfl
  rw [add_def, parts_negZero, same, ofParts_parts]

theorem zero_ne_negZero : (0 : Float) ≠ negZero := by decide

/-- A value that was added to zero first adds the same. -/
theorem add_zero_add {a : Float} (ha : a ≠ negZero) (x : Float) : a + (0 + x) = a + x := by
  by_cases hx : x = negZero
  · rw [hx, add_negZero, add_negZero, add_zero_of_ne ha]
  · rw [zero_add_of_ne hx]

/-- The exponent of a finite double is no less than the least one. -/
theorem least_le_exponent {x : Float} {s : Sign} {m : Nat} {e : Int} {h : 0 < m}
    (hx : parts x = .finite s m e h) : -1074 ≤ e := by
  have := regular_parts x
  rw [hx] at this
  exact this.1.2.1

theorem parts_round_ne_negZero (s : Sign) {m : Nat} {e : Int} (hm : 0 < m) (he : -1074 ≤ e) :
    parts (ofParts (UnpackedFloat.round .binary64 s m e)) ≠ .zero .negative := by
  obtain ⟨m', e', h, eq, rounded, -⟩ := round_cases s hm he
  rw [eq, parts_ofParts_of_rounded rounded]
  split <;> simp

theorem parts_normalize_ne_negZero (m : Int) {e : Int} (he : -1074 ≤ e) :
    parts (ofParts (UnpackedFloat.normalize .binary64 m e .positive)) ≠ .zero .negative := by
  unfold UnpackedFloat.normalize
  cases order : compare m 0 with
  | lt =>
    have := Int.compare_eq_lt.mp order
    exact parts_round_ne_negZero .negative (by omega) he
  | eq => simp [parts_ofParts (u := .zero .positive) trivial]
  | gt =>
    have := Int.compare_eq_gt.mp order
    exact parts_round_ne_negZero .positive (by omega) he

/-- A sum is a negative zero only if both operands are. -/
theorem add_ne_negZero {x : Float} (hx : x ≠ negZero) (y : Float) : x + y ≠ negZero := by
  by_cases hy : y = negZero
  · rwa [hy, add_negZero]
  by_cases hz : x = 0
  · rwa [hz, zero_add_of_ne hy]
  have special : ∀ u : UnpackedFloat, Regular u → u ≠ .zero .negative →
      parts (ofParts u) ≠ .zero .negative := fun u regular h => by rwa [parts_ofParts regular]
  rw [ne_negZero_iff, add_def]
  cases px : parts x with
  | notANumber => exact special .notANumber trivial (by simp)
  | zero s => cases s with
    | positive => exact absurd (parts_injective px) hz
    | negative => exact absurd (parts_injective px) hx
  | infinity s =>
    cases py : parts y with
    | infinity t =>
      simp only [UnpackedFloat.add]
      split
      · exact special (.infinity s) trivial (by simp)
      · exact special .notANumber trivial (by simp)
    | notANumber => exact special .notANumber trivial (by simp)
    | _ => exact special (.infinity s) trivial (by simp)
  | finite s m e hm =>
    cases py : parts y with
    | notANumber => exact special .notANumber trivial (by simp)
    | infinity t => exact special (.infinity t) trivial (by simp)
    | zero t => exact special (.finite s m e hm) (px ▸ regular_parts x) (by simp)
    | finite t n f hn =>
      have := least_le_exponent px
      have := least_le_exponent py
      exact parts_normalize_ne_negZero _ (by omega)

/-! ## Multiplying by zero and one, dividing by one -/

theorem mul_comm (x y : Float) : x * y = y * x := by
  have signs : ∀ s t : Sign, s * t = t * s := by rintro (_ | _) (_ | _) <;> rfl
  rw [mul_def, mul_def]
  congr 1
  cases parts x <;> cases parts y <;> simp [UnpackedFloat.mul, signs, Nat.mul_comm, Int.add_comm]

theorem mul_zero_of_finite {x : Float} (hx : x.isFinite = true) : x * 0 = 0 ∨ x * 0 = negZero := by
  have signed : ∀ s : Sign, ofParts (.zero s) = 0 ∨ ofParts (.zero s) = negZero := by
    rintro (_ | _)
    · exact .inr rfl
    · exact .inl rfl
  rw [isFinite_def] at hx
  rw [mul_def, parts_zero]
  cases h : parts x with
  | notANumber => simp [h, UnpackedFloat.isFinite] at hx
  | infinity s => simp [h, UnpackedFloat.isFinite] at hx
  | zero s => exact signed _
  | finite s m e hm => exact signed _

theorem mul_zero_of_not_finite {x : Float} (hx : x.isFinite = false) : x * 0 = nan := by
  rw [isFinite_def] at hx
  rw [mul_def, parts_zero]
  cases h : parts x with
  | notANumber => rfl
  | infinity s => rfl
  | zero s => simp [h, UnpackedFloat.isFinite] at hx
  | finite s m e hm => simp [h, UnpackedFloat.isFinite] at hx

theorem mul_one (x : Float) : x * 1 = x := by
  have signs : ∀ s : Sign, s * .positive = s := by rintro (_ | _) <;> rfl
  have regular := regular_parts x
  have same : UnpackedFloat.mul .binary64 (parts x) (.finite .positive (2 ^ 52) (-52) (by decide)) =
      parts x := by
    cases h : parts x with
    | finite s m e hm =>
      rw [h] at regular
      simp only [UnpackedFloat.mul, signs]
      exact roundWithAccuracy_exact s hm regular.1 52
    | _ => simp [UnpackedFloat.mul, signs]
  rw [mul_def, parts_one, same, ofParts_parts]

/-- Dividing a mantissa by one appends zeros to it. -/
theorem divCore_one {s : Sign} {m : Nat} {e : Int} {hm : 0 < m}
    (rounded : Rounded (.finite s m e hm)) :
    ∃ k : Nat, divCore .binary64 m e (2 ^ 52) (-52) = (m * 2 ^ k, e - k, .exact) := by
  obtain ⟨upper, least, normal⟩ := rounded
  obtain ⟨t, ht⟩ : ∃ t, min (e - -52) (Format.binary64.targetExponent
    (totalExponent m e - totalExponent (2 ^ 52) (-52))) = t := ⟨_, rfl⟩
  have bound : t ≤ e := by
    have bits := (Nat.log2_lt hm.ne').mpr upper
    rw [← ht, targetExponent_binary64]
    simp only [totalExponent, Nat.log2_two_pow]
    omega
  obtain ⟨k, rfl⟩ : ∃ k : Nat, t = e - k := ⟨(e - t).toNat, by omega⟩
  have amount : (e - -52 - (e - (k : Int))).toNat = k + 52 := by omega
  refine ⟨k, ?_⟩
  simp only [divCore, ht, amount, Nat.shiftLeft_eq, pow_add, ← mul_assoc]
  simp [accuracyOfFraction]

theorem div_one (x : Float) : x / 1 = x := by
  have signs : ∀ s : Sign, s / .positive = s := by rintro (_ | _) <;> rfl
  have regular := regular_parts x
  have same : UnpackedFloat.div .binary64 (parts x) (.finite .positive (2 ^ 52) (-52) (by decide)) =
      parts x := by
    cases h : parts x with
    | finite s m e hm =>
      rw [h] at regular
      obtain ⟨k, quotient⟩ := divCore_one regular.1
      simp only [UnpackedFloat.div, quotient, signs]
      exact roundWithAccuracy_exact s hm regular.1 k
    | _ => simp [UnpackedFloat.div, signs]
  rw [div_def, parts_one, same, ofParts_parts]

end UpperConfidence.Double
