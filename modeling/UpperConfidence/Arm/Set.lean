import UpperConfidence.Arm.Index

/-!
# Sets of arms

A set of arms is given by a count, which means the integers from zero on, or by
identifiers in order.
-/

namespace UpperConfidence

/-- The arms to choose between. -/
inductive Arms where
  | count (n : Nat)
  | listed (ids : List ArmId)
  deriving DecidableEq, Repr

namespace Arms

/-- The identifiers that a set stands for. -/
def toList : Arms → List ArmId
  | .count n => (List.range n).map fun (i : Nat) => .ofInt i
  | .listed ids => ids

/-- The identifiers, if there is at least one and none is repeated. -/
def resolve (arms : Arms) : Except Rejection (List ArmId) := do
  if arms.toList.isEmpty then throw .noArms
  requireDistinct arms.toList
  return arms.toList

@[simp] theorem length_toList_count (n : Nat) : (count n).toList.length = n := by
  simp [toList]

theorem toList_eq_nil_iff {arms : Arms} :
    arms.toList = [] ↔ arms = .count 0 ∨ arms = .listed [] := by
  cases arms <;> simp [toList]

theorem resolve_eq (arms : Arms) : arms.resolve = if arms.toList = [] then .error .noArms
    else (requireDistinct arms.toList).map fun _ => arms.toList := by
  unfold resolve
  cases arms.toList with
  | nil => rfl
  | cons arm ids => cases requireDistinct (arm :: ids) <;> rfl

/-- A set of arms is accepted if there are some and they are different. -/
theorem resolve_eq_ok_iff {arms : Arms} {ids : List ArmId} :
    arms.resolve = .ok ids ↔ arms.toList ≠ [] ∧ arms.toList.Nodup ∧ ids = arms.toList := by
  rw [resolve_eq, ← requireDistinct_eq_ok_iff]
  by_cases empty : arms.toList = []
  · simp [empty]
  · cases requireDistinct arms.toList <;> simp [empty, Except.map, eq_comm]

end Arms

end UpperConfidence
