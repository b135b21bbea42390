import UpperConfidence.Score.Basic

/-!
# Scores of success counts

The tuned bound for rewards that are zero or one, straight from the counts of
plays and successes. The number of observations is the sum of the plays, with
its fraction, and the squared rewards equal the rewards. Arms without plays are
not set apart: they get whatever the division yields.
-/

namespace UpperConfidence

/-- The tuned bounds of arms given by plays and successes. -/
def bernoulliScores (ln : Float → Float) (plays successes : Values) :
    Except Rejection Values := do
  requireLength .successes plays.length successes.length
  let averages := successes.div plays
  return tunedBound averages averages (confidenceWidths (logTotal ln plays.laneSum) plays)

end UpperConfidence
