import UpperConfidence.Bandit.Basic
import UpperConfidence.Decimal.Places

/-!
# Summaries

A bandit in one line: its algorithm, the number of its arms, and for each arm
the average reward with three places and the whole part of its count.
-/

namespace UpperConfidence

/-- The average and the count of one arm. -/
def armSummary (average count : Float) : String :=
  s!"{Decimal.fixed 3 average} ({count.toUInt64})"

namespace Bandit

/-- The parts of a summary, one for each arm. -/
def armSummaries (b : Bandit) : List String := List.zipWith armSummary b.averages b.stats.counts

def summary (b : Bandit) : String :=
  let arms := ", ".intercalate b.armSummaries
  s!"{b.algorithm.displayName}({b.size} arms; {arms})"

end Bandit

end UpperConfidence
