import UpperConfidence.Bandit.Operation

/-!
# Scores of a single batch

The scores of a bandit that has seen nothing but one batch. It has one arm for
each count of the batch.
-/

namespace UpperConfidence

/-- The scores after one batch for all arms, with squares if they are given. -/
def Algorithm.scoresOfBatch (a : Algorithm) (ln : Float → Float)
    (counts rewards : Values) (squares : Option Values) : Except Failure Values := do
  let b ← (Bandit.create ⟨.count counts.length, a⟩).mapError .rejected
  let b ← b.apply (.batch { counts, rewards, squares })
  return b.scores ln

end UpperConfidence
