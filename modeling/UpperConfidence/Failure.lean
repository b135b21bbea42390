import UpperConfidence.Algorithm.Basic
import UpperConfidence.Arm.Id
import UpperConfidence.Decimal.Shortest

/-!
# Causes of failure

A request is rejected when its arguments do not fit: the bandit is as before
and the caller may go on. A fault is raised when a rule that the caller had to
keep is broken in the middle of a computation. Every cause has one wording.
-/

namespace UpperConfidence

/-- The vectors whose length is checked against another one. -/
inductive Quantity where
  | counts
  | rewards
  | squares
  | positions
  | successes
  | testbedArms
  deriving DecidableEq, Repr

def Quantity.label : Quantity → String
  | .counts => "n_obs_per_arm"
  | .rewards => "sum_reward_per_arm"
  | .squares => "sum_reward_squared_per_arm"
  | .positions => "idxs"
  | .successes => "num_success_per_arm"
  | .testbedArms => "testbed arms"

/-- Arguments that do not fit. -/
inductive Rejection where
  | unknownArm (arm : ArmId) (known : List ArmId)
  | duplicateArm (arm : ArmId)
  | shapeMismatch (what : Quantity) (expected actual : Nat)
  | indexOutOfRange (index length : Nat)
  | noArms
  | missingSquares (algorithm : Algorithm)
  | unknownAlgorithm (name : String)
  deriving DecidableEq, Repr

def Rejection.message : Rejection → String
  | .unknownArm arm known =>
    s!"unknown arm id {arm.text}. Known arm ids: {ArmId.listText known}"
  | .duplicateArm arm => s!"duplicate arm id {arm.text}"
  | .shapeMismatch what expected actual =>
    s!"shape mismatch for `{what.label}`: expected length {expected}, got {actual}"
  | .indexOutOfRange index length => s!"index {index} out of range for {length} arms"
  | .noArms => "a bandit needs at least one arm"
  | .missingSquares algorithm => s!"{algorithm.displayName} needs per-arm sums of squared rewards"
  | .unknownAlgorithm name => s!"unknown UCB algorithm `{name}`"

/-- A broken rule in the middle of a computation. -/
inductive Fault where
  /-- The total number of observations exceeds 64 bits. -/
  | countOverflow
  /-- A testbed has no such arm. -/
  | invalidArm (arm : Nat)
  /-- A parameter lies outside its closed interval. -/
  | outsideInterval (name : String) (lower upper : Float)
  /-- A success probability is not between zero and one. -/
  | invalidProbability
  /-- A draw needs more attempts than its source of randomness allows. -/
  | undecided
  deriving DecidableEq

def Fault.message : Fault → String
  | .countOverflow => "attempt to add with overflow"
  | .invalidArm arm => s!"Invalid arm: {arm}"
  | .outsideInterval name lower upper =>
    s!"Invalid value for `{name}`. Must be in the interval " ++
      s!"[{Decimal.shortest lower}, {Decimal.shortest upper}]."
  | .invalidProbability =>
    "called `Result::unwrap()` on an `Err` value: InvalidProbability"
  | .undecided => "a draw was not decided within its attempts"

/-- Why a request did not succeed. -/
inductive Failure where
  | rejected (cause : Rejection)
  | fault (cause : Fault)
  deriving DecidableEq

def Failure.message : Failure → String
  | .rejected cause => cause.message
  | .fault cause => cause.message

/-- What is done in two steps succeeds if both of them do. -/
theorem bind_eq_ok_iff {ε α β : Type} {x : Except ε α} {f : α → Except ε β} {y : β} :
    x >>= f = .ok y ↔ ∃ a, x = .ok a ∧ f a = .ok y := by
  cases x <;> simp [bind, Except.bind]

theorem mapError_ok {ε δ α : Type} (f : ε → δ) (a : α) :
    (.ok a : Except ε α).mapError f = .ok a := rfl

/-- Accept a vector of the expected length only. -/
def requireLength (what : Quantity) (expected actual : Nat) : Except Rejection Unit :=
  if expected = actual then .ok () else .error (.shapeMismatch what expected actual)

theorem requireLength_eq_ok_iff {what : Quantity} {expected actual : Nat} :
    requireLength what expected actual = .ok () ↔ expected = actual := by
  unfold requireLength
  split <;> simp_all

theorem requireLength_of_ne {what : Quantity} {expected actual : Nat} (h : expected ≠ actual) :
    requireLength what expected actual = .error (.shapeMismatch what expected actual) := if_neg h

end UpperConfidence
