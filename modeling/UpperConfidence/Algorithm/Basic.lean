/-!
# Scoring algorithms

Four upper confidence bounds. Two of them estimate the variance of an arm and
so need the sums of squared rewards; for rewards that are zero or one the
squares equal the rewards.
-/

namespace UpperConfidence

/-- An upper confidence bound on the mean reward of an arm. -/
inductive Algorithm where
  /-- Average plus `sqrt (2 ln (T + 1) / n)`. -/
  | ucb1
  /-- The bound tuned by an estimate of the variance. -/
  | tuned
  /-- The tuned bound for rewards that are zero or one. -/
  | tunedBernoulli
  /-- Average plus `sqrt (average * ln (T + 1) / n) + ln (T + 1) / n`. -/
  | metric
  deriving DecidableEq, Repr

namespace Algorithm

instance : Inhabited Algorithm := ⟨.ucb1⟩

/-- Every algorithm, in the order in which they are listed. -/
def all : List Algorithm := [.ucb1, .tuned, .tunedBernoulli, .metric]

/-- Whether the algorithm needs the sums of squared rewards. -/
def tracksVariance : Algorithm → Bool
  | .tuned | .tunedBernoulli => true
  | .ucb1 | .metric => false

def displayName : Algorithm → String
  | .ucb1 => "UCB1"
  | .tuned => "UCBTuned"
  | .tunedBernoulli => "UCBTunedBernoulli"
  | .metric => "MetricUCB"

theorem mem_all (a : Algorithm) : a ∈ all := by cases a <;> decide

theorem displayName_injective {a b : Algorithm} (h : a.displayName = b.displayName) : a = b := by
  revert h
  cases a <;> cases b <;> decide

end Algorithm

end UpperConfidence
