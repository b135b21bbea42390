import UpperConfidence.Proofs.Bandit.Transfer
import UpperConfidence.Proofs.Score.Formula

/-!
# Rewards that stand for their squares

A bandit for rewards that are zero or one takes the rewards of a batch for their squares
and squares the reward of a single observation. Its sums of squares are its sums of
rewards all the same, whatever batches it is given. So its scores have one average for
both, and the variance of an arm is estimated from its average reward alone.
-/

namespace UpperConfidence

open Double (nan negZero)

/-- The tuned bound of arms whose rewards are their own squares. -/
def ScoreTerms.selfSquaredBound (t : ScoreTerms) : Values :=
  let variances := (t.averages.sub (t.averages.mul t.averages)).add (t.widths.scale 2).sqrt
  t.averages.add (t.widths.mul variances).sqrt

theorem ScoreTerms.averageSquares_ofStats {s : Stats} (derived : s.squares = some s.rewards)
    (logTotal : Float) :
    (ofStats logTotal s).averageSquares = some (ofStats logTotal s).averages := by
  simp [ofStats, derived]

theorem ScoreTerms.tunedBound_eq {t : ScoreTerms} (same : t.averageSquares = some t.averages) :
    t.tunedBound = t.selfSquaredBound := by
  rw [tunedBound, same]
  rfl

namespace Bandit

variable {b : Bandit}

/-- The sums of squares are the sums of rewards, and the scores make nothing else of them. -/
structure SelfSquared (b : Bandit) : Prop where
  squares : b.stats.squares = some b.stats.rewards
  averages : ∀ logTotal, (ScoreTerms.ofStats logTotal b.stats).averageSquares =
    some (ScoreTerms.ofStats logTotal b.stats).averages
  scores : ∀ (ln : Float → Float) (t : ScoreTerms),
    ScoreTerms.ofStats (logTotal ln b.stats.total.toFloat) b.stats = t →
    b.scores ln = t.selfSquaredBound.maskFill t.unplayed infinity
  /-- The score of an arm with observations. -/
  played : ∀ (ln : Float → Float) (i : ℕ) (n s a L : Float), b.stats.counts[i]? = some n →
    b.stats.rewards[i]? = some s → ¬ n ≤ 0 → s / n = a →
    logTotal ln b.stats.total.toFloat / n = L → ∃ x, (b.scores ln)[i]? = some x ∧
      SameButZero x (a + (L * (a - a * a + (2 * L).sqrt)).sqrt)

theorem WellFormed.selfSquared (wf : b.WellFormed) (bernoulli : b.algorithm = .tunedBernoulli)
    (derived : b.stats.squares = some b.stats.rewards) : b.SelfSquared where
  squares := derived
  averages := ScoreTerms.averageSquares_ofStats derived
  scores ln t terms := by
    have bound := ScoreTerms.tunedBound_eq
      (ScoreTerms.averageSquares_ofStats derived (logTotal ln b.stats.total.toFloat))
    rw [terms] at bound
    rw [Bandit.scores, bernoulli, Algorithm.scores, terms, ← bound]
    rfl
  played ln i n s a L hn hs unmasked average width := by
    have hq : b.stats.squares.map (·[i]?) = (some s).map some := by
      rw [derived, Option.map_some, hs]
      rfl
    have score := wf.exists_played_score ln hn hs hq unmasked
    rw [bernoulli, width, Option.elim_some, average] at score
    exact score

/-- A bandit for rewards that are zero or one never tells its sums of squares from its sums of
rewards, whatever batches it has accepted or rejected. -/
theorem selfSquared_of_history {config : Config} {start : Bandit}
    (created : create config = .ok start) (bernoulli : config.algorithm = .tunedBernoulli)
    (activities : List Activity)
    (binary : ∀ arm r, .single arm r ∈ start.accepted activities →
      (r == 0) = true ∨ (r == 1) = true) : (start.history activities).SelfSquared := by
  obtain ⟨wf, -, algorithm⟩ := wellFormed_of_create created
  obtain ⟨wf', -, algorithm'⟩ := wf.history activities
  exact wf'.selfSquared (algorithm'.trans (algorithm.trans bernoulli))
    (squares_eq_rewards_of_history created bernoulli binary)

/-- A batch with rewards that are no sums of zeros and ones and with squares of its own, a batch
that does not fit, and two observations, one of them of an unknown arm. -/
theorem selfSquared_of_two_arms : ∃ start b : Bandit,
    create ⟨.count 2, .tunedBernoulli⟩ = .ok start ∧
    b = start.history [.operation (.batch ⟨[2, 1], [nan, negZero], some [7, 8], none⟩),
      .operation (.batch ⟨[1, 1], [1], none, none⟩), .operation (.single (.ofInt 1) 1),
      .operation (.single (.ofInt 7) 5)] ∧
    b.stats = ⟨4, [2, 2], [nan, 1], some [nan, 1]⟩ ∧ b.SelfSquared := by
  obtain ⟨start, hs, created, -⟩ := exists_create (.count 2) .tunedBernoulli (by decide) (by decide)
  obtain ⟨activities, given⟩ : ∃ activities : List Activity,
      [.operation (.batch ⟨[2, 1], [nan, negZero], some [7, 8], none⟩),
        .operation (.batch ⟨[1, 1], [1], none, none⟩), .operation (.single (.ofInt 1) 1),
        .operation (.single (.ofInt 7) 5)] = activities := ⟨_, rfl⟩
  have accepted : start.accepted activities =
      [.batch ⟨[2, 1], [nan, negZero], some [7, 8], none⟩, .single (.ofInt 1) 1] := by
    rw [← hs, ← given]
    decide +kernel
  have totals : (start.history activities).stats = ⟨4, [2, 2], [nan, 1], some [nan, 1]⟩ := by
    rw [← hs, ← given]
    decide +kernel
  rw [given]
  refine ⟨start, _, created, rfl, totals, selfSquared_of_history created rfl activities ?_⟩
  intro arm r mem
  rw [accepted] at mem
  obtain ⟨rfl, rfl⟩ : arm = .ofInt 1 ∧ r = 1 := by simpa using mem
  exact .inr rfl

end Bandit

end UpperConfidence
