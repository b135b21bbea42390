import UpperConfidence.Failure

/-!
# Parameters in intervals

A parameter may be confined to a closed interval. No interval holds a value
that is not a number.
-/

namespace UpperConfidence

/-- Accept a parameter between `lower` and `upper` only. -/
def requireBetween (name : String) (value lower upper : Float) : Except Fault Unit :=
  if lower ≤ value ∧ value ≤ upper then .ok () else .error (.outsideInterval name lower upper)

theorem requireBetween_eq_ok_iff {name : String} {value lower upper : Float} :
    requireBetween name value lower upper = .ok () ↔ lower ≤ value ∧ value ≤ upper := by
  unfold requireBetween
  split <;> simp_all

end UpperConfidence
