import Mathlib
import UpperConfidence.Arm.Set

/-!
# Renaming arms

Identifiers are compared with each other and never looked into. If each arm gets another
name, and different arms get different names, then every arm is found in the place in which
it has been before, and what is reported is the same in the new names.
-/

namespace UpperConfidence

theorem mapError_bind {ε ε' α β : Type} (g : ε → ε') (x : Except ε α) (k : α → Except ε β) :
    (x >>= k).mapError g = x.mapError g >>= fun a => (k a).mapError g := by
  cases x <;> rfl

theorem mapError_map {ε ε' α β : Type} (g : ε → ε') (h : α → β) (x : Except ε α) :
    (h <$> x).mapError g = h <$> x.mapError g := by
  cases x <;> rfl

/-! ## Other names -/

/-- A rejection with other names for the arms. -/
def Rejection.rename (f : ArmId → ArmId) : Rejection → Rejection
  | .unknownArm arm known => .unknownArm (f arm) (known.map f)
  | .duplicateArm arm => .duplicateArm (f arm)
  | .shapeMismatch what expected actual => .shapeMismatch what expected actual
  | .indexOutOfRange index length => .indexOutOfRange index length
  | .noArms => .noArms
  | .missingSquares algorithm => .missingSquares algorithm
  | .unknownAlgorithm name => .unknownAlgorithm name

/-- A failure with other names for the arms. -/
def Failure.rename (f : ArmId → ArmId) : Failure → Failure
  | .rejected cause => .rejected (cause.rename f)
  | .fault cause => .fault cause

/-- A set of arms with other names. The integers that a count stands for are renamed, too. -/
def Arms.rename (f : ArmId → ArmId) (arms : Arms) : Arms := .listed (arms.toList.map f)

/-- An index with other names for the arms. -/
def ArmIndex.rename (f : ArmId → ArmId) (index : ArmIndex) : ArmIndex where
  ids := index.ids.map f
  table := index.table.map (Prod.map f id)

/-- No arm is named where two lengths differ. -/
theorem mapError_requireLength (f : ArmId → ArmId) (what : Quantity) (expected actual : ℕ) :
    (requireLength what expected actual).mapError (.rename f) =
      requireLength what expected actual := by
  unfold requireLength
  split <;> rfl

/-! ## The same places -/

variable {f : ArmId → ArmId} (injective : Function.Injective f)
include injective

theorem firstRepeatAfter_map (seen ids : List ArmId) :
    firstRepeatAfter (seen.map f) (ids.map f) = (firstRepeatAfter seen ids).map f := by
  induction ids generalizing seen with
  | nil => rfl
  | cons arm ids ih =>
    have again : f arm ∈ seen.map f ↔ arm ∈ seen := List.mem_map_of_injective injective
    rw [List.map_cons, firstRepeatAfter, firstRepeatAfter, ← List.map_cons, ih,
      if_congr again rfl rfl]
    split <;> rfl

theorem requireDistinct_map (ids : List ArmId) :
    requireDistinct (ids.map f) = (requireDistinct ids).mapError (.rename f) := by
  have repeated : firstRepeat (ids.map f) = (firstRepeat ids).map f :=
    firstRepeatAfter_map injective [] ids
  rw [requireDistinct, requireDistinct, repeated]
  cases firstRepeat ids <;> rfl

theorem Arms.resolve_rename (arms : Arms) :
    (arms.rename f).resolve = (List.map f <$> arms.resolve).mapError (.rename f) := by
  have listed : (arms.rename f).toList = arms.toList.map f := rfl
  rw [resolve, resolve, listed, List.isEmpty_map, requireDistinct_map injective]
  cases arms.toList.isEmpty
  · cases requireDistinct arms.toList <;> rfl
  · rfl

namespace ArmIndex

theorem lookup_map (table : List (ArmId × ℕ)) (arm : ArmId) :
    (table.map (Prod.map f id)).lookup (f arm) = table.lookup arm := by
  induction table with
  | nil => rfl
  | cons entry table ih =>
    have same : (f arm == f entry.1) = (arm == entry.1) := by simp [injective.eq_iff]
    rw [List.map_cons, List.lookup_cons, List.lookup_cons, ih, Prod.map_fst, same]
    rfl

theorem ofList_map (ids : List ArmId) :
    ofList (ids.map f) = (rename f <$> ofList ids).mapError (.rename f) := by
  rw [ofList_eq, ofList_eq, requireDistinct_map injective, List.zipIdx_map]
  cases requireDistinct ids <;> rfl

theorem position_rename (index : ArmIndex) (arm : ArmId) :
    (index.rename f).position (f arm) = (index.position arm).mapError (.rename f) := by
  rw [position, position, rename, lookup_map injective]
  cases index.table.lookup arm <;> rfl

theorem positions_rename (index : ArmIndex) (arms : List ArmId) :
    (index.rename f).positions (arms.map f) = (index.positions arms).mapError (.rename f) := by
  have each : (arms.map f).mapM (index.rename f).position =
      (arms.mapM index.position).mapError (.rename f) := by
    induction arms with
    | nil => rfl
    | cons arm arms ih =>
      simp only [List.map_cons, List.mapM_cons, mapError_bind, position_rename injective, ih]
      rfl
  rw [positions, positions, mapError_bind, requireDistinct_map injective, each]

end ArmIndex

end UpperConfidence
