import UpperConfidence.Proofs.Bandit.Transfer
import UpperConfidence.Proofs.Score.Unplayed
import UpperConfidence.Score.Bernoulli

/-!
# Scores of success counts without a bandit

The tuned bound of plays and successes can be computed straight from the vectors, or by
a new bandit that is given them as a batch. The bandit adds to zeros, takes the whole
part of the sum of the plays, masks the arms without observations and then turns a
negative zero into a positive one. If every arm has been played and the sum of the plays
is a whole number, none of this shows in the scores: adding to zeros changes the sign of
a zero only, and a score whose average is a zero is the root alone, which has no sign.
-/

namespace UpperConfidence

open Double

/-! ## Sums of positive values -/

namespace Double

variable {x y : Float}

theorem add_pos_left (hx : 0 < x) (hy : 0 ≤ y) : 0 < x + y :=
  lt_of_lt_of_le hx (le_add (le_of_lt hx) hy).1

theorem add_pos_right (hx : 0 ≤ x) (hy : 0 < y) : 0 < x + y :=
  lt_of_lt_of_le hy (le_add hx (le_of_lt hy)).2

end Double

/-- No running sum is negative. -/
structure Lanes.Nonneg (l : Lanes) : Prop where
  p0 : 0 ≤ l.p0
  p1 : 0 ≤ l.p1
  p2 : 0 ≤ l.p2
  p3 : 0 ≤ l.p3
  p4 : 0 ≤ l.p4
  p5 : 0 ≤ l.p5
  p6 : 0 ≤ l.p6
  p7 : 0 ≤ l.p7

theorem Lanes.nonneg_empty : empty.Nonneg := by constructor <;> decide

theorem Lanes.Nonneg.combine {l : Lanes} (h : l.Nonneg) :
    0 ≤ l.combine ∧ (0 < l.p0 → 0 < l.combine) := by
  have zero : (0 : Float) ≤ 0 := by decide
  have p15 := nonneg_add h.p1 h.p5
  have p26 := nonneg_add h.p2 h.p6
  have p37 := nonneg_add h.p3 h.p7
  constructor
  · exact nonneg_add (nonneg_add (nonneg_add (nonneg_add zero (nonneg_add h.p0 h.p4)) p15) p26) p37
  · intro pos
    have first := add_pos_right zero (add_pos_left pos h.p4)
    exact add_pos_left (add_pos_left (add_pos_left first p15) p26) p37

namespace Values

theorem foldl_pos {xs : Values} (pos : ∀ x ∈ xs, 0 < x) {a : Float} (nonneg : 0 ≤ a)
    (some : 0 < a ∨ xs ≠ []) : 0 < xs.foldl (· + ·) a := by
  induction xs generalizing a with
  | nil => exact some.resolve_right (by simp)
  | cons x xs ih =>
    obtain ⟨head, tail⟩ := List.forall_mem_cons.mp pos
    have here := add_pos_right nonneg head
    exact ih tail (le_of_lt here) (.inl here)

theorem sumFrom_pos {l : Lanes} (h : l.Nonneg) {xs : Values} (pos : ∀ x ∈ xs, 0 < x)
    (some : 0 < l.p0 ∨ xs ≠ []) : 0 < sumFrom l xs := by
  fun_induction sumFrom l xs with
  | case1 l x0 x1 x2 x3 x4 x5 x6 x7 rest ih =>
    obtain ⟨p0, p1, p2, p3, p4, p5, p6, p7⟩ := h
    simp only [List.forall_mem_cons] at pos
    obtain ⟨h0, h1, h2, h3, h4, h5, h6, h7, later⟩ := pos
    refine ih ?_ later (.inl (add_pos_right p0 h0))
    constructor <;> exact nonneg_add (by assumption) (le_of_lt (by assumption))
  | case2 l rest short =>
    obtain ⟨nonneg, combined⟩ := h.combine
    exact foldl_pos pos nonneg (some.imp_left combined)

/-- Positive values have a positive sum. -/
theorem laneSum_pos {xs : Values} (pos : ∀ x ∈ xs, 0 < x) (nonempty : xs ≠ []) :
    0 < xs.laneSum := sumFrom_pos Lanes.nonneg_empty pos (.inr nonempty)

end Values

/-! ## Averages that differ in the sign of a zero -/

theorem zero_div_of_pos {p : Float} (pos : 0 < p) : 0 / p = 0 ∧ negZero / p = negZero := by
  rw [lt_def] at pos
  rw [div_def, div_def]
  cases hp : parts p with
  | notANumber => rw [hp] at pos; cases pos
  | zero s => rw [hp] at pos; cases pos
  | _ s =>
    rw [hp] at pos
    cases s with
    | positive => exact ⟨rfl, rfl⟩
    | negative => cases pos

/-- A signless width makes the tuned bound of a zero average the root alone. -/
theorem formula_zero {L : Float} (hL : Unsigned L) :
    Algorithm.tunedBernoulli.formula 0 0 L = (L * (2 * L).sqrt).sqrt ∧
      Algorithm.tunedBernoulli.formula negZero negZero L = (L * (2 * L).sqrt).sqrt ∧
      (L * (2 * L).sqrt).sqrt ≠ negZero := by
  have two : Unsigned 2 := unsigned_of_pos (by decide)
  have inner := unsigned_sqrt (unsigned_mul two hL)
  have root := (unsigned_sqrt (unsigned_mul hL inner)).ne_negZero
  have square : (0 : Float) - 0 * 0 = 0 := by decide
  have square' : negZero - negZero * negZero = negZero := by decide
  refine ⟨?_, ?_, root⟩
  · rw [Algorithm.formula, square, zero_add_of_ne inner.ne_negZero, zero_add_of_ne root]
  · rw [Algorithm.formula, square', negZero_add, negZero_add]

/-- The masks and the additions to zero do not change the score of an arm with observations. -/
theorem score_of_plays {p s L : Float} (pos : 0 < p) (hL : Unsigned L) :
    maskFill false infinity (Algorithm.tunedBernoulli.formula
      (maskFill false 0 (0 + s) / p) (maskFill false 0 (0 + s) / p) L) =
    Algorithm.tunedBernoulli.formula (s / p) (s / p) L := by
  have proper : 0 + s ≠ negZero := add_ne_negZero zero_ne_negZero s
  rw [maskFill_false_of_ne proper]
  obtain ⟨plain, negative, root⟩ := formula_zero hL
  by_cases hs : s = negZero
  · obtain ⟨zero, kept⟩ := zero_div_of_pos pos
    rw [hs, add_negZero, zero, kept, plain, negative, maskFill_false_of_ne root]
  · rw [zero_add_of_ne hs]
    -- Negative successes can be small enough for their average to be a negative zero.
    by_cases average : s / p = negZero
    · rw [average, negative, maskFill_false_of_ne root]
    · exact maskFill_false_of_ne (add_ne_negZero average _)

/-! ## Both ways to the scores -/

section Scores

variable {plays successes : Values} {ln : Float → Float}

theorem getElem?_bernoulli (ln : Float → Float) {i : ℕ} {p s : Float} (hp : plays[i]? = some p)
    (hs : successes[i]? = some s) :
    (tunedBound (successes.div plays) (successes.div plays)
      (confidenceWidths (logTotal ln plays.laneSum) plays))[i]? =
    some (Algorithm.tunedBernoulli.formula (s / p) (s / p) (logTotal ln plays.laneSum / p)) := by
  have average : (successes.div plays)[i]? = some (s / p) := by
    simp [Values.div, List.getElem?_zipWith, hp, hs]
  exact getElem?_bound .tunedBernoulli
    (t := ⟨_, some _, confidenceWidths (logTotal ln plays.laneSum) plays, []⟩) average average
    (getElem?_confidenceWidths _ hp)

namespace Bandit

variable {fresh : Bandit}

/-- A new bandit takes a batch of plays and successes, one for each arm. -/
theorem apply_of_plays (new : fresh.stats = .fresh fresh.size fresh.algorithm.tracksVariance)
    (bernoulli : fresh.algorithm = .tunedBernoulli) (size : fresh.size = plays.length)
    (length : successes.length = plays.length) :
    fresh.apply (.batch ⟨plays, successes, none, none⟩) = .ok { fresh with stats := {
      total := plays.laneSum.toUInt64
      counts := .add (.zeros plays.length) plays
      rewards := .add (.zeros plays.length) successes
      squares := some (.add (.zeros plays.length) successes) } } := by
  have checked : Batch.check ⟨plays, successes, none, none⟩ .tunedBernoulli = .ok () := by
    rw [Batch.check, if_neg (by simp), requireLength_eq_ok_iff.mpr length.symm]
    rfl
  have aligned (c : Contribution) (h : c.counts = plays) : fresh.align none c = .ok c := by
    rw [align, Option.filter_none, h, requireLength_eq_ok_iff.mpr size]
    rfl
  have contributed : fresh.contribution (.batch ⟨plays, successes, none, none⟩) =
      .ok ⟨plays, successes, some successes⟩ := by
    rw [contribution, batchContribution, bernoulli, checked]
    simp only [bind, Except.bind, aligned]
    rfl
  have room : fresh.stats.total.toNat + plays.laneSum.toUInt64.toNat < 2 ^ 64 := by
    rw [new, Stats.fresh, UInt64.toNat_zero, Nat.zero_add]
    exact plays.laneSum.toUInt64.toNat_lt
  apply apply_eq_ok_iff.mpr
  rw [step_of_contribution contributed, Contribution.observed, if_pos room, new, bernoulli, size,
    Stats.grow]
  simp only [Stats.fresh, Algorithm.tracksVariance, Contribution.observed, UInt64.zero_add]
  rfl

end Bandit

/-- The scores of the totals that such a batch leaves are those of the vectors. -/
theorem scores_of_plays (length : successes.length = plays.length) (pos : ∀ p ∈ plays, 0 < p)
    {total : UInt64} (sum : total.toFloat = plays.laneSum)
    (log : Unsigned (logTotal ln plays.laneSum)) :
    Algorithm.tunedBernoulli.scores ln { total
                                         counts := .add (.zeros plays.length) plays
                                         rewards := .add (.zeros plays.length) successes
                                         squares := some (.add (.zeros plays.length) successes) } =
      tunedBound (successes.div plays) (successes.div plays)
        (confidenceWidths (logTotal ln plays.laneSum) plays) := by
  obtain ⟨st, hst⟩ : ∃ st : Stats, ⟨total, .add (.zeros plays.length) plays,
      .add (.zeros plays.length) successes, some (.add (.zeros plays.length) successes)⟩ = st :=
    ⟨_, rfl⟩
  have fits : st.Fits plays.length true := by
    rw [← hst]
    simp [Stats.Fits, length]
  rw [hst]
  apply List.ext_getElem?
  intro i
  rcases Nat.lt_or_ge i plays.length with hi | hi
  · obtain ⟨p, hp⟩ : ∃ p, plays[i]? = some p := ⟨_, List.getElem?_eq_getElem hi⟩
    obtain ⟨s, hs⟩ : ∃ s, successes[i]? = some s := ⟨_, List.getElem?_eq_getElem (length ▸ hi)⟩
    have zero : (Values.zeros plays.length)[i]? = some 0 := List.getElem?_replicate_of_lt hi
    have played := pos p (List.mem_of_getElem? hp)
    have proper : p ≠ negZero := (unsigned_of_pos played).ne_negZero
    have count : st.counts[i]? = some p := by
      rw [← hst]
      simp [Values.add, List.getElem?_zipWith, zero, hp, zero_add_of_ne proper]
    have reward : st.rewards[i]? = some (0 + s) := by
      rw [← hst]
      simp [Values.add, List.getElem?_zipWith, zero, hs]
    have square : st.squares.map (·[i]?) = (some (0 + s)).map some := by
      rw [Option.map_some, ← reward, ← hst]
      rfl
    have unmasked : decide (p ≤ 0) = false := decide_eq_false fun h => not_lt_of_le h played
    have widened : total = st.total := by rw [← hst]
    rw [getElem?_bernoulli ln hp hs, getElem?_scores _ ln count reward square unmasked,
      Option.elim_some, maskFill_false_of_ne proper, ← widened, sum,
      score_of_plays played (unsigned_div log (unsigned_of_pos played))]
  · rw [List.getElem?_eq_none (by rwa [Algorithm.length_scores fits]),
      List.getElem?_eq_none (by simpa [tunedBound, confidenceWidths, length])]

end Scores

/-- Without a bandit the scores of success counts are those of a new bandit. Vectors of
different lengths are rejected either way. -/
theorem bernoulliScores_eq_scoresOfBatch {ln : Float → Float} (law : ∀ x, 2 ≤ x → 0 < ln x)
    {plays successes : Values} (nonempty : plays ≠ []) (size : plays.length ≤ 2 ^ 64) :
    (successes.length = plays.length → (∀ p ∈ plays, 0 < p) →
      ∀ m : ℕ, m < 2 ^ 64 → value plays.laneSum = some (m : ℚ) →
      ∃ scores, bernoulliScores ln plays successes = .ok scores ∧
        Algorithm.tunedBernoulli.scoresOfBatch ln plays successes none = .ok scores) ∧
    (successes.length ≠ plays.length →
      bernoulliScores ln plays successes =
        .error (.shapeMismatch .successes plays.length successes.length) ∧
      Algorithm.tunedBernoulli.scoresOfBatch ln plays successes none =
        .error (.rejected (.shapeMismatch .rewards plays.length successes.length))) := by
  obtain ⟨fresh, created, arms⟩ :=
    Bandit.exists_create_count (List.length_pos_iff.mpr nonempty) size .tunedBernoulli
  obtain ⟨wf, -, algorithm⟩ := Bandit.wellFormed_of_create created
  have new := Bandit.stats_of_create created
  have batch : Algorithm.tunedBernoulli.scoresOfBatch ln plays successes none =
      (fresh.apply (.batch ⟨plays, successes, none, none⟩)).map (·.scores ln) := by
    rw [Algorithm.scoresOfBatch, created]
    rfl
  constructor
  · intro length pos m bound sum
    have positive := Values.laneSum_pos pos nonempty
    have whole : plays.laneSum.toUInt64.toFloat = plays.laneSum := by
      have word : plays.laneSum.toUInt64.toNat = m := toNat_toUInt64 sum bound
      rw [toFloat_eq_ofInt, word]
      exact ofInt_eq_of_value (by exact_mod_cast sum) (unsigned_of_pos positive).ne_negZero
    have two : 2 ≤ plays.laneSum + 1 :=
      two_le_add_one sum (by exact_mod_cast (lt_iff_value value_zero sum).mp positive)
    have straight : bernoulliScores ln plays successes =
        .ok (tunedBound (successes.div plays) (successes.div plays)
          (confidenceWidths (logTotal ln plays.laneSum) plays)) := by
      rw [bernoulliScores, requireLength_eq_ok_iff.mpr length.symm]
      rfl
    have scores := scores_of_plays length pos whole (unsigned_of_pos (law _ two))
    refine ⟨_, straight, ?_⟩
    rw [batch, Bandit.apply_of_plays new algorithm arms length, Except.map, Bandit.scores,
      algorithm, scores]
  · intro length
    have rejected : fresh.contribution (.batch ⟨plays, successes, none, none⟩) =
        .error (.shapeMismatch .rewards plays.length successes.length) := by
      apply Bandit.contribution_of_check_error
      rw [Batch.check, if_neg (by simp [algorithm]), requireLength_of_ne (Ne.symm length)]
      rfl
    constructor
    · rw [bernoulliScores, requireLength_of_ne (Ne.symm length)]
      rfl
    · rw [batch, Bandit.apply_eq_error_of_step (Bandit.step_of_rejected rejected)]
      rfl

/-- Successes that are a negative zero and not a number, and a vector that is too short. -/
theorem bernoulliScores_eq_scoresOfBatch_of_two_arms : ∃ (ln : Float → Float) (scores : Values),
    ln 4 = 1.3862943611198906 ∧ bernoulliScores ln [2, 1] [negZero, nan] = .ok scores ∧
    Algorithm.tunedBernoulli.scoresOfBatch ln [2, 1] [negZero, nan] none = .ok scores ∧
    bernoulliScores ln [2, 1] [1] = .error (.shapeMismatch .successes 2 1) ∧
    Algorithm.tunedBernoulli.scoresOfBatch ln [2, 1] [1] none =
      .error (.rejected (.shapeMismatch .rewards 2 1)) := by
  obtain ⟨ln, given, -, least⟩ := exists_logBound 4 1.3862943611198906 (by decide) (by decide)
  have law : ∀ x, 2 ≤ x → 0 < ln x := fun x _ => lt_of_lt_of_le (by decide) (least x)
  have both (successes : Values) :=
    @bernoulliScores_eq_scoresOfBatch ln law [2, 1] successes (by simp) (by simp)
  have sum : value (Values.laneSum [2, 1]) = some ((3 : ℕ) : ℚ) := by
    have exact : Values.Counting [2, 1] 3 := ⟨[2, 1], .cons (by simp) (.cons (by simp) .nil), rfl⟩
    rw [exact.laneSum (by decide)]
    exact value_ofNat (by decide)
  obtain ⟨scores, straight, batch⟩ := (both [negZero, nan]).1 rfl (by decide) 3 (by decide) sum
  obtain ⟨short, short'⟩ := (both [1]).2 (by simp)
  exact ⟨ln, scores, given, straight, batch, short, short'⟩

end UpperConfidence
