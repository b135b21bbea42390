import UpperConfidence.Parameter
import UpperConfidence.Testbed.Distribution
import UpperConfidence.Values.FirstMaximum

/-!
# Testbeds

A testbed is a list of arms with known reward distributions. It shows whether a
bandit learns which arm is the best one.
-/

namespace UpperConfidence

/-- The reward distributions of the arms. -/
structure Testbed where
  arms : List Distribution
  deriving DecidableEq

namespace Testbed

/-- Arms with the given success probabilities, all between zero and one. -/
def bernoulli (probabilities : List Float) : Except Fault Testbed := do
  let arms ← probabilities.mapM fun p => do
    requireBetween "p" p 0 1
    return Distribution.bernoulli p
  return ⟨arms⟩

/-- Arms of unit deviation whose means are standard normal draws, in order. -/
def randomGaussian (fns : Elementary) (k : Nat) : Sampler Testbed := do
  let arms ← (List.range k).mapM fun _ => return Distribution.gaussian (← Sampler.normal fns) 1
  return ⟨arms⟩

/-- The number of arms. -/
def size (t : Testbed) : Nat := t.arms.length

def means (t : Testbed) : Values := t.arms.map Distribution.mean

/-- The arm with the greatest mean, the first of them if there are several. -/
def bestArm (t : Testbed) : Nat := t.means.firstMaximum

/-- The reward of pulling an arm. -/
def pull (t : Testbed) (fns : Elementary) (arm : Nat) : Sampler Float :=
  match t.arms[arm]? with
  | some distribution => distribution.reward fns
  | none => throw (.invalidArm arm)

@[simp] theorem length_means (t : Testbed) : t.means.length = t.size := by
  simp [means, size]

end Testbed

end UpperConfidence
