import UpperConfidence.Random.Normal

/-!
# Reward distributions

An arm of a testbed draws its rewards from a normal distribution, or it yields
one with some probability and zero otherwise.
-/

namespace UpperConfidence

/-- How the rewards of one arm are distributed. -/
inductive Distribution where
  | gaussian (mean deviation : Float)
  | bernoulli (p : Float)
  deriving DecidableEq

namespace Distribution

def mean : Distribution → Float
  | .gaussian mean _ => mean
  | .bernoulli p => p

/-- One reward. -/
def reward (fns : Elementary) : Distribution → Sampler Float
  | .gaussian mean deviation => return mean + deviation * (← Sampler.normal fns)
  | .bernoulli p => return if ← Sampler.bernoulli p then 1 else 0

end Distribution

end UpperConfidence
