import UpperConfidence.Arm.Set
import UpperConfidence.Score.Basic
import UpperConfidence.Values.FirstMaximum

/-!
# Bandits

A bandit has a fixed set of arms, an algorithm and the totals of what it has
observed. Its scores, its averages and the arm it chooses are functions of the
totals. It chooses the arm with the greatest score, the first of them if there
are several.
-/

namespace UpperConfidence

/-- What a bandit is made from. -/
structure Config where
  arms : Arms
  algorithm : Algorithm := default

/-- A bandit over a fixed set of arms. -/
structure Bandit where
  index : ArmIndex
  algorithm : Algorithm
  stats : Stats
  deriving DecidableEq

namespace Bandit

/-- A bandit without observations. -/
def create (config : Config) : Except Rejection Bandit := do
  let ids ← config.arms.resolve
  let index ← ArmIndex.ofList ids
  return {
    index
    algorithm := config.algorithm
    stats := .fresh index.size config.algorithm.tracksVariance }

/-- The arms in order. -/
def ids (b : Bandit) : List ArmId := b.index.ids

/-- The number of arms. -/
def size (b : Bandit) : Nat := b.index.size

def averages (b : Bandit) : Values := b.stats.averages

/-- The scores of the arms under the bandit's own algorithm. -/
def scores (b : Bandit) (ln : Float → Float) : Values := b.algorithm.scores ln b.stats

/-- The chosen arm together with its score. -/
def choice? (b : Bandit) (ln : Float → Float) : Option (ArmId × Float) :=
  let scores := b.scores ln
  (b.ids.zip scores)[scores.firstMaximum]?

/-- The arm to play next. Only a bandit without arms has none. -/
def action (b : Bandit) (ln : Float → Float) : Except Rejection ArmId :=
  match b.choice? ln with
  | some (arm, _) => .ok arm
  | none => .error .noArms

end Bandit

end UpperConfidence
