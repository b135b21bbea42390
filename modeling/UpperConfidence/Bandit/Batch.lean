import UpperConfidence.Bandit.Basic
import UpperConfidence.Values.Scatter

/-!
# Contributions of observations

Observations come one by one or in batches of per-arm totals. A batch covers
all arms in order, or the arms that it names, in any order but none twice.
Either way it is checked and brought into vectors over all arms before anything
is added.
-/

namespace UpperConfidence

/-- Totals of some observations, for all arms in order or for the named ones. -/
structure Batch where
  counts : Values
  rewards : Values
  squares : Option Values := none
  arms : Option (List ArmId) := none
  deriving DecidableEq

namespace Batch

/-- The squares that an algorithm takes from a batch. Rewards that are zero or
one are their own squares, whatever squares the batch has. -/
def squaresFor (batch : Batch) : Algorithm → Option Values
  | .tunedBernoulli => some batch.rewards
  | _ => batch.squares

/-- All vectors of a batch have one length, and the tuned bound needs squares. -/
def check (batch : Batch) (algorithm : Algorithm) : Except Rejection Unit := do
  if algorithm = .tuned ∧ batch.squares = none then throw (.missingSquares algorithm)
  requireLength .rewards batch.counts.length batch.rewards.length
  match batch.squares with
  | some squares => requireLength .squares batch.counts.length squares.length
  | none => return

end Batch

namespace Contribution

/-- The vectors of a contribution placed at `positions` among `n` arms. -/
def place (c : Contribution) (positions : List Nat) (n : Nat) : Except Rejection Contribution := do
  return {
    counts := ← c.counts.place positions n
    rewards := ← c.rewards.place positions n
    squares := ← c.squares.mapM (·.place positions n) }

/-- A contribution without squares where the variance is not tracked. -/
def restrict (c : Contribution) (algorithm : Algorithm) : Contribution :=
  { c with squares := if algorithm.tracksVariance then c.squares else none }

end Contribution

namespace Bandit

/-- Bring vectors over the named arms into vectors over all arms. A list of all
arms in order is the same as none. -/
def align (b : Bandit) (arms : Option (List ArmId)) (c : Contribution) :
    Except Rejection Contribution :=
  match arms.filter (!b.index.isCanonical ·) with
  | some ids => do
    let positions ← b.index.positions ids
    requireLength .counts ids.length c.counts.length
    c.place positions b.size
  | none => do
    requireLength .counts b.size c.counts.length
    return c

/-- What a batch adds, if it fits the bandit. -/
def batchContribution (b : Bandit) (batch : Batch) : Except Rejection Contribution := do
  batch.check b.algorithm
  let c ← b.align batch.arms ⟨batch.counts, batch.rewards, batch.squaresFor b.algorithm⟩
  return c.restrict b.algorithm

/-- What one play of `arm` with the given reward adds. -/
def singleContribution (b : Bandit) (arm : ArmId) (reward : Float) :
    Except Rejection Contribution := do
  let position ← b.index.position arm
  let squares := if b.algorithm.tracksVariance then some [reward * reward] else none
  Contribution.place ⟨[1], [reward], squares⟩ [position] b.size

end Bandit

end UpperConfidence
