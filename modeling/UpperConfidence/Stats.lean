import UpperConfidence.Failure
import UpperConfidence.Procedure
import UpperConfidence.Values.Sum

/-!
# Running totals

For each arm the totals keep how often it was played, the sum of its rewards
and, where the variance is tracked, the sum of its squared rewards. Besides
there is one count of all observations. Totals only grow by contributions,
which are vectors over all arms.

The count of all observations is a word of 64 bits. It grows by the whole part
of the sum of a contribution's counts. It is the first of the totals to grow, and
when it would overflow, the others are not reached.
-/

namespace UpperConfidence

/-- What one update adds, arm by arm. -/
structure Contribution where
  counts : Values
  rewards : Values
  squares : Option Values
  deriving DecidableEq

/-- The totals of a bandit. Squares are present where the variance is tracked. -/
structure Stats where
  total : UInt64
  counts : Values
  rewards : Values
  squares : Option Values
  deriving DecidableEq

namespace Stats

/-- Totals of `n` arms without observations. -/
def fresh (n : Nat) (tracksVariance : Bool) : Stats where
  total := 0
  counts := .zeros n
  rewards := .zeros n
  squares := if tracksVariance then some (.zeros n) else none

/-- The sum of two counts, unless it needs more than 64 bits. -/
def addCount (total grown : UInt64) : Except Fault UInt64 :=
  if total.toNat + grown.toNat < UInt64.size then .ok (total + grown) else .error .countOverflow

/-- Squares grow only where they are kept and contributed. -/
def addSquares : Option Values → Option Values → Option Values
  | some kept, some added => some (kept.add added)
  | kept, _ => kept

/-- Add a contribution to the totals, one after the other. -/
def accumulate (c : Contribution) : Procedure Stats Fault Unit := do
  let total ← addCount (← get).total c.counts.laneSum.toUInt64
  modify fun s => { s with total }
  modify fun s => { s with counts := s.counts.add c.counts }
  modify fun s => { s with rewards := s.rewards.add c.rewards }
  modify fun s => { s with squares := addSquares s.squares c.squares }

/-- The average reward of each arm, which is not a number for an unplayed arm. -/
def averages (s : Stats) : Values := s.rewards.div s.counts

/-- Whether every vector of the totals has length `n`, and squares are kept if
and only if the variance is tracked. -/
def Fits (s : Stats) (n : Nat) (tracksVariance : Bool) : Prop :=
  s.counts.length = n ∧ s.rewards.length = n ∧ s.squares.isSome = tracksVariance ∧
    ∀ qs ∈ s.squares, qs.length = n

theorem fits_fresh (n : Nat) (tracksVariance : Bool) :
    (fresh n tracksVariance).Fits n tracksVariance := by
  cases tracksVariance <;> simp [fresh, Fits]

theorem Fits.length_averages {s : Stats} {n : Nat} {tracks : Bool} (h : s.Fits n tracks) :
    s.averages.length = n := by
  simp [averages, h.1, h.2.1]

end Stats

end UpperConfidence
