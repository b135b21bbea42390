import UpperConfidence.Stats
import UpperConfidence.Values.Mask

/-!
# Scores

Each algorithm scores the arms from their totals and from the number `T` of all
observations. With `L = ln (T + 1) / n` the bounds are the average plus
`sqrt (2 L)`, the average plus `sqrt (L * V)` with the variance estimate
`V = average of squares - average ^ 2 + sqrt (2 L)`, and the average plus
`sqrt (average * L) + L`. They are computed for all arms at once, as vectors.

An arm without observations scores infinity and so is played first. Until then
it counts as played once without reward, which keeps its raw score finite: a
mask does not hide a value that is not a number.
-/

namespace UpperConfidence

/-- The terms of every arm from which the bounds are built. -/
structure ScoreTerms where
  averages : Values
  /-- Absent where squares are not tracked. -/
  averageSquares : Option Values
  /-- The logarithm of the number of observations over the count of the arm. -/
  widths : Values
  /-- Which arms have no observations. -/
  unplayed : List Bool

/-- The infinite score of an arm that has to be played. -/
def infinity : Float := 1 / 0

/-- The logarithm of one more than the number of observations, which is defined
before the first of them. -/
def logTotal (ln : Float → Float) (total : Float) : Float := ln (total + 1)

/-- The logarithm over the count of every arm. -/
def confidenceWidths (logTotal : Float) (counts : Values) : Values :=
  ((Values.ones counts.length).scale logTotal).div counts

/-- The arms without observations; a count that is not a number is an observation. -/
def unplayedArms (counts : Values) : List Bool := counts.map fun n => n ≤ 0

/-- The average plus `sqrt (L * V)`. -/
def tunedBound (averages averageSquares widths : Values) : Values :=
  let variances := (averageSquares.sub (averages.mul averages)).add (widths.scale 2).sqrt
  averages.add (widths.mul variances).sqrt

namespace ScoreTerms

/-- The terms of the arms, where an arm without observations counts as played once. -/
def ofStats (logTotal : Float) (s : Stats) : ScoreTerms :=
  let unplayed := unplayedArms s.counts
  let counts := s.counts.maskFill unplayed 1
  let averages (sums : Values) := (sums.maskFill unplayed 0).div counts
  { averages := averages s.rewards
    averageSquares := s.squares.map averages
    widths := confidenceWidths logTotal counts
    unplayed }

/-- The average plus `sqrt (2 L)`. -/
def plainBound (t : ScoreTerms) : Values := t.averages.add (t.widths.scale 2).sqrt

/-- The tuned bound. Without tracked squares their average is zero. -/
def tunedBound (t : ScoreTerms) : Values :=
  let averageSquares := t.averageSquares.getD (.zeros t.averages.length)
  UpperConfidence.tunedBound t.averages averageSquares t.widths

/-- The average plus `sqrt (average * L) + L`. With a negative average this is
not a number. -/
def metricBound (t : ScoreTerms) : Values :=
  (t.averages.add (t.averages.mul t.widths).sqrt).add t.widths

end ScoreTerms

namespace Algorithm

/-- The bound of an algorithm on arms that have been played. -/
def bound : Algorithm → ScoreTerms → Values
  | .ucb1 => ScoreTerms.plainBound
  | .tuned | .tunedBernoulli => ScoreTerms.tunedBound
  | .metric => ScoreTerms.metricBound

/-- The score of every arm. -/
def scores (a : Algorithm) (ln : Float → Float) (s : Stats) : Values :=
  let terms := ScoreTerms.ofStats (logTotal ln s.total.toFloat) s
  (a.bound terms).maskFill terms.unplayed infinity

theorem length_bound {a : Algorithm} {t : ScoreTerms} {n : Nat} (averages : t.averages.length = n)
    (squares : ∀ qs ∈ t.averageSquares, qs.length = n) (widths : t.widths.length = n) :
    (a.bound t).length = n := by
  cases a with
  | ucb1 => simp [bound, ScoreTerms.plainBound, averages, widths]
  | metric => simp [bound, ScoreTerms.metricBound, averages, widths]
  | _ =>
    cases given : t.averageSquares with
    | none =>
      simp [bound, ScoreTerms.tunedBound, UpperConfidence.tunedBound, given, averages, widths]
    | some qs =>
      simp [bound, ScoreTerms.tunedBound, UpperConfidence.tunedBound, given, averages, widths,
        squares qs given]

theorem length_scores {a : Algorithm} {ln : Float → Float} {s : Stats} {n : Nat} {tracks : Bool}
    (h : s.Fits n tracks) : (a.scores ln s).length = n := by
  obtain ⟨hc, hr, -, hq⟩ := h
  have bounds : (a.bound (.ofStats (logTotal ln s.total.toFloat) s)).length = n := by
    apply length_bound
    · simp [ScoreTerms.ofStats, unplayedArms, hc, hr]
    · intro qs given
      obtain ⟨kept, hkept, rfl⟩ := Option.map_eq_some_iff.mp given
      simp [unplayedArms, hc, hq kept hkept]
    · simp [ScoreTerms.ofStats, confidenceWidths, unplayedArms, hc]
  simp only [scores, Values.length_maskFill, bounds]
  simp [ScoreTerms.ofStats, unplayedArms, hc]

end Algorithm

end UpperConfidence
