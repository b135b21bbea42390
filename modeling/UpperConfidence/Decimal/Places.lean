import UpperConfidence.Decimal.Binary

/-!
# Decimals with a fixed number of places

The exact binary value is rounded to the given number of places, and a value
half way between two decimals goes to the one whose last digit is even. There
is never an exponent, and a negative value that rounds to zero keeps its sign.
-/

namespace UpperConfidence.Decimal

/-- The integer nearest to `num / den`; of two equally near ones, the even one. -/
def roundDivEven (num den : Nat) : Nat :=
  let q := num / den
  match compare (2 * (num % den)) den with
  | .lt => q
  | .eq => if q % 2 = 0 then q else q + 1
  | .gt => q + 1

/-- How many units of `10 ^ -places` the value `mantissa * 2 ^ exponent` rounds to. -/
def roundToPlaces (places mantissa : Nat) (exponent : Int) : Nat :=
  roundDivEven (mantissa * Nat.pow 2 exponent.toNat * Nat.pow 10 places)
    (Nat.pow 2 (-exponent).toNat)

/-- A double with `places` digits after the point. -/
def fixed (places : Nat) (x : Float) : String :=
  render (fun mantissa exponent => pointed (roundToPlaces places mantissa exponent) places) x

/-- The rounded quotient is within half a unit of the exact one. -/
theorem roundDivEven_near (num : Nat) {den : Nat} (h : 0 < den) :
    2 * num ≤ 2 * (roundDivEven num den * den) + den ∧
      2 * (roundDivEven num den * den) ≤ 2 * num + den := by
  have parts := Nat.div_add_mod' num den
  have small := Nat.mod_lt num h
  have step : (num / den + 1) * den = num / den * den + den := Nat.succ_mul _ _
  unfold roundDivEven
  cases order : compare (2 * (num % den)) den with
  | lt =>
    have := Nat.compare_eq_lt.mp order
    simp only
    omega
  | eq =>
    have := Nat.compare_eq_eq.mp order
    by_cases even : num / den % 2 = 0
    · simp only [even, if_true]
      omega
    · simp only [even, if_false]
      omega
  | gt =>
    have := Nat.compare_eq_gt.mp order
    simp only
    omega

theorem roundDivEven_mul (q : Nat) {den : Nat} (h : 0 < den) : roundDivEven (q * den) den = q := by
  have lt : compare 0 den = .lt := by simp [Nat.compare_eq_lt, h]
  simp [roundDivEven, Nat.mul_div_cancel _ h, lt]

end UpperConfidence.Decimal
