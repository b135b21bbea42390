import UpperConfidence.Proofs.Bandit.Invariant
import UpperConfidence.Proofs.Double.Magnitude
import UpperConfidence.Score.Basic

/-!
# Scores as plain formulas

Scores are computed as vectors, with masks that are arithmetic. Arm by arm they
come to a formula of the arm's own totals and the logarithm. For an arm with
observations no mask has an effect, up to the sign of a zero. For an arm without
them every masked total is zero or not a number, so the score is infinite or not
a number, and which of the two it is depends on the totals alone.
-/

namespace UpperConfidence

open Double

/-- The laws of the natural logarithm that scores rely on. That it is finite would not
be enough, since twice a finite value may be infinite. -/
structure LogLaw (ln : Float → Float) : Prop where
  nonneg : ∀ x, x.isFinite = true → 1 ≤ x → 0 ≤ ln x
  le_self : ∀ x, x.isFinite = true → 1 ≤ x → ln x ≤ x

/-- The same value, up to the sign of a zero. -/
def SameButZero (x y : Float) : Prop := x = y ∨ x = 0 ∧ y = negZero

/-- The plain formula of an algorithm for an arm with average `a`, average of
squares `v`, and the logarithm over the count `L`. -/
def Algorithm.formula : Algorithm → (a v L : Float) → Float
  | .ucb1, a, _, L => a + (2 * L).sqrt
  | .tuned, a, v, L | .tunedBernoulli, a, v, L => a + (L * (v - a * a + (2 * L).sqrt)).sqrt
  | .metric, a, _, L => a + (a * L).sqrt + L

/-! ## Masks -/

theorem maskFill_true_of_finite {x : Float} (hx : x.isFinite = true) {fill : Float}
    (hf : fill ≠ negZero) : maskFill true fill x = fill := by
  rw [maskFill_true]
  rcases mul_zero_of_finite hx with zero | zero <;> rw [zero]
  · exact zero_add_of_ne hf
  · exact negZero_add fill

theorem maskFill_true_of_not_finite {fill x : Float} (hx : x.isFinite = false) :
    maskFill true fill x = nan := by
  rw [maskFill_true, mul_zero_of_not_finite hx, nan_add]

theorem maskFill_false_of_ne {fill x : Float} (hx : x ≠ negZero) : maskFill false fill x = x := by
  rw [maskFill_false, Double.mul_one, add_zero_of_ne hx]

theorem maskFill_false_sameButZero (fill x : Float) : SameButZero (maskFill false fill x) x := by
  by_cases hx : x = negZero
  · refine .inr ⟨?_, hx⟩
    rw [maskFill_false, hx]
    rfl
  · exact .inl (maskFill_false_of_ne hx)

/-! ## Entries of vectors -/

section Entries

variable {i : Nat}

theorem getElem?_bound (alg : Algorithm) {t : ScoreTerms} {a v L : Float}
    (ha : t.averages[i]? = some a)
    (hv : (t.averageSquares.getD (.zeros t.averages.length))[i]? = some v)
    (hL : t.widths[i]? = some L) : (alg.bound t)[i]? = some (alg.formula a v L) := by
  cases alg <;>
    simp [Algorithm.bound, ScoreTerms.plainBound, ScoreTerms.tunedBound, ScoreTerms.metricBound,
      tunedBound, Algorithm.formula, Values.add, Values.sub, Values.mul, Values.scale, Values.sqrt,
      List.getElem?_zipWith, ha, hv, hL, Double.mul_comm L 2]

theorem getElem?_averages {counts sums : Values} {mask : List Bool} {n s : Float} {u : Bool}
    (hn : counts[i]? = some n) (hs : sums[i]? = some s) (hu : mask[i]? = some u) :
    ((sums.maskFill mask 0).div (counts.maskFill mask 1))[i]? =
      some (maskFill u 0 s / maskFill u 1 n) := by
  simp [Values.div, Values.maskFill, List.getElem?_zipWith, hn, hs, hu]

theorem getElem?_confidenceWidths {counts : Values} {n : Float} (logTotal : Float)
    (hn : counts[i]? = some n) : (confidenceWidths logTotal counts)[i]? = some (logTotal / n) := by
  obtain ⟨hi, -⟩ := List.getElem?_eq_some_iff.mp hn
  have one : (Values.ones counts.length)[i]? = some 1 := List.getElem?_replicate_of_lt hi
  simp [confidenceWidths, Values.div, Values.scale, List.getElem?_zipWith, hn, one,
    Double.mul_comm 1, Double.mul_one]

/-- The score of an arm, with the masks that were applied to its totals. -/
theorem getElem?_scores (alg : Algorithm) (ln : Float → Float) {st : Stats} {n s : Float}
    {q : Option Float} (hn : st.counts[i]? = some n) (hs : st.rewards[i]? = some s)
    (hq : st.squares.map (·[i]?) = q.map some) {u : Bool} (hu : decide (n ≤ 0) = u) :
    (alg.scores ln st)[i]? = some (maskFill u infinity (alg.formula
      (maskFill u 0 s / maskFill u 1 n) (q.elim 0 fun q => maskFill u 0 q / maskFill u 1 n)
      (logTotal ln st.total.toFloat / maskFill u 1 n))) := by
  obtain ⟨t, ht⟩ : ∃ t, ScoreTerms.ofStats (logTotal ln st.total.toFloat) st = t := ⟨_, rfl⟩
  have mask : (unplayedArms st.counts)[i]? = some u := by
    simp [unplayedArms, hn, hu]
  have count : (st.counts.maskFill (unplayedArms st.counts) 1)[i]? = some (maskFill u 1 n) := by
    simp [Values.maskFill, List.getElem?_zipWith, hn, mask]
  have ha : t.averages[i]? = some (maskFill u 0 s / maskFill u 1 n) := by
    rw [← ht]
    exact getElem?_averages hn hs mask
  have hL : t.widths[i]? = some (logTotal ln st.total.toFloat / maskFill u 1 n) := by
    rw [← ht]
    exact getElem?_confidenceWidths _ count
  have hv : (t.averageSquares.getD (.zeros t.averages.length))[i]? =
      some (q.elim 0 fun q => maskFill u 0 q / maskFill u 1 n) := by
    obtain ⟨hi, -⟩ := List.getElem?_eq_some_iff.mp ha
    have squares : t.averageSquares = st.squares.map fun sums =>
        (sums.maskFill (unplayedArms st.counts) 0).div
          (st.counts.maskFill (unplayedArms st.counts) 1) := by
      rw [← ht]
      rfl
    rw [squares]
    cases given : st.squares with
    | none =>
      rw [given] at hq
      obtain rfl := Option.map_eq_none_iff.mp hq.symm
      exact List.getElem?_replicate_of_lt hi
    | some kept =>
      rw [given, Option.map_some] at hq
      obtain ⟨x, rfl, hx⟩ := Option.map_eq_some_iff.mp hq.symm
      exact getElem?_averages hn hx.symm mask
  have raw := getElem?_bound alg ha hv hL
  have scores : alg.scores ln st = (alg.bound t).maskFill (unplayedArms st.counts) infinity := by
    rw [← ht]
    rfl
  rw [scores]
  simp [Values.maskFill, List.getElem?_zipWith, mask, raw]

end Entries

/-! ## Arms without observations -/

theorem within_two : Within 2 2 := by
  rw [Within, parts_two]
  exact ⟨rfl, by decide⟩

/-- The number of observations, plus one, is finite and at least one. -/
theorem isFinite_count_add_one (total : UInt64) :
    (total.toFloat + 1).isFinite = true ∧ 1 ≤ total.toFloat + 1 ∧
      Within 67 (total.toFloat + 1) := by
  have one : Within 65 1 := by
    rw [Within, parts_one]
    exact ⟨rfl, by decide⟩
  have sum := within_add (by omega) (within_toFloat total) one
  exact ⟨sum.isFinite, one_le_add_one (within_toFloat total), sum⟩

theorem LogLaw.within {ln : Float → Float} (law : LogLaw ln) (total : UInt64) :
    Within 67 (logTotal ln total.toFloat) := by
  obtain ⟨finite, least, bound⟩ := isFinite_count_add_one total
  exact bound.of_le (law.nonneg _ finite least) (law.le_self _ finite least)

/-- The raw score of an arm that counts as played once without reward is finite. -/
theorem isFinite_formula (alg : Algorithm) {L : Float} (h : Within 67 L) :
    (alg.formula 0 0 L).isFinite = true := by
  have twice : Within 70 (2 * L) := within_mul (by omega) within_two h
  have root : Within 36 (2 * L).sqrt := within_sqrt (by omega) twice
  cases alg with
  | ucb1 => exact (within_add (by omega) (within_zero 36) root).isFinite
  | metric =>
    have product : Within 68 (0 * L) := within_mul (by omega) (within_zero 0) h
    have radius : Within 67 (0 * L).sqrt := (within_sqrt (by omega) product).mono (by omega)
    have sum : Within 69 (0 + (0 * L).sqrt) := within_add (by omega) (within_zero 67) radius
    exact (within_add (by omega) sum (h.mono (by omega))).isFinite
  | _ =>
    have estimate : Within 38 (0 - 0 * 0 + (2 * L).sqrt) :=
      within_add (by omega) (within_zero 36) root
    have product : Within 106 (L * (0 - 0 * 0 + (2 * L).sqrt)) := within_mul (by omega) h estimate
    have radius := within_sqrt (by omega) product
    exact (within_add (by omega) (within_zero 54) radius).isFinite

theorem formula_nan (alg : Algorithm) (v L : Float) : alg.formula nan v L = nan := by
  cases alg <;> simp [Algorithm.formula]

theorem formula_nan_square {alg : Algorithm} (tracks : alg.tracksVariance = true) (a L : Float) :
    alg.formula a nan L = nan := by
  cases alg with
  | ucb1 => cases tracks
  | metric => cases tracks
  | _ => simp [Algorithm.formula]

/-- A masked square that is finite counts as zero, and other algorithms do not read it. -/
theorem formula_masked_square {alg : Algorithm} {q : Option Float}
    (finite : alg.tracksVariance = true → ∀ x ∈ q, x.isFinite = true) (L : Float) :
    alg.formula 0 (q.elim 0 fun q => maskFill true 0 q / 1) L = alg.formula 0 0 L := by
  cases q with
  | none => rfl
  | some x =>
    by_cases tracks : alg.tracksVariance = true
    · have zero : maskFill true 0 x = 0 :=
        maskFill_true_of_finite (finite tracks x rfl) zero_ne_negZero
      rw [Option.elim_some, Double.div_one, zero]
    · cases alg <;> simp [Algorithm.tracksVariance] at tracks <;> rfl

/-- A mask does not hide a square that is not finite. -/
theorem formula_lost_square {alg : Algorithm} (tracks : alg.tracksVariance = true)
    {q : Option Float} {x : Float} (hx : x ∈ q) (infinite : x.isFinite = false) (a L : Float) :
    alg.formula a (q.elim 0 fun q => maskFill true 0 q / 1) L = nan := by
  obtain rfl := Option.mem_def.mp hx
  rw [Option.elim_some, maskFill_true_of_not_finite infinite, nan_div, formula_nan_square tracks]

/-- The score of an arm without observations, once its masks are worked out. -/
theorem unplayed_score (alg : Algorithm) {L n s : Float} {q : Option Float} (h : Within 67 L) :
    maskFill true infinity (alg.formula (maskFill true 0 s / maskFill true 1 n)
      (q.elim 0 fun q => maskFill true 0 q / maskFill true 1 n) (L / maskFill true 1 n)) =
    if n.isFinite ∧ s.isFinite ∧ (alg.tracksVariance = true → ∀ x ∈ q, x.isFinite) then infinity
    else nan := by
  have positive : infinity ≠ negZero := by
    rw [ne_negZero_iff, parts_infinity]
    simp
  have lost : maskFill true infinity nan = nan := maskFill_true_of_not_finite (by decide)
  cases hn : n.isFinite with
  | false => simp [maskFill_true_of_not_finite hn, formula_nan, lost]
  | true =>
    have one : maskFill true 1 n = 1 := maskFill_true_of_finite hn (by decide)
    rw [one]
    cases hs : s.isFinite with
    | false => simp [maskFill_true_of_not_finite hs, formula_nan, lost]
    | true =>
      have zero : maskFill true 0 s = 0 := maskFill_true_of_finite hs zero_ne_negZero
      rw [zero, Double.div_one, Double.div_one]
      by_cases all : alg.tracksVariance = true → ∀ x ∈ q, x.isFinite = true
      · rw [formula_masked_square all, maskFill_true_of_finite (isFinite_formula alg h) positive]
        exact (if_pos ⟨rfl, rfl, all⟩).symm
      · rw [if_neg (fun finite => all finite.2.2)]
        simp only [not_forall] at all
        obtain ⟨tracks, x, hx, infinite⟩ := all
        rw [formula_lost_square tracks hx (by simpa using infinite), lost]

/-- The score of an arm with observations, which no mask disturbs. -/
theorem played_score (alg : Algorithm) {L n s : Float} {q : Option Float} (hn : n ≠ negZero)
    (hs : s ≠ negZero) (hq : ∀ x ∈ q, x ≠ negZero) :
    SameButZero (maskFill false infinity (alg.formula (maskFill false 0 s / maskFill false 1 n)
      (q.elim 0 fun q => maskFill false 0 q / maskFill false 1 n) (L / maskFill false 1 n)))
      (alg.formula (s / n) (q.elim 0 (· / n)) (L / n)) := by
  have squares : (q.elim 0 fun q => maskFill false 0 q / maskFill false 1 n) =
      q.elim 0 (· / n) := by
    cases q with
    | none => rfl
    | some x => simp [maskFill_false_of_ne (hq x rfl), maskFill_false_of_ne hn]
  rw [squares, maskFill_false_of_ne hn, maskFill_false_of_ne hs]
  exact maskFill_false_sameButZero _ _

/-! ## The scores of a bandit -/

/-- The totals of one arm. -/
theorem Bandit.WellFormed.exists_entries {b : Bandit} (wf : b.WellFormed) {i : Nat}
    (hi : i < b.size) : ∃ (n s : Float) (q : Option Float), b.stats.counts[i]? = some n ∧
      b.stats.rewards[i]? = some s ∧ b.stats.squares.map (·[i]?) = q.map some := by
  obtain ⟨n, hn⟩ : ∃ n, b.stats.counts[i]? = some n :=
    ⟨_, List.getElem?_eq_getElem (wf.fits.1.symm ▸ hi)⟩
  obtain ⟨s, hs⟩ : ∃ s, b.stats.rewards[i]? = some s :=
    ⟨_, List.getElem?_eq_getElem (wf.fits.2.1.symm ▸ hi)⟩
  obtain ⟨q, hq⟩ : ∃ q : Option Float, b.stats.squares.map (·[i]?) = q.map some := by
    cases given : b.stats.squares with
    | none => exact ⟨none, rfl⟩
    | some kept =>
      have hk : i < kept.length := wf.fits.2.2.2 kept given ▸ hi
      exact ⟨some kept[i], by simp [List.getElem?_eq_getElem hk]⟩
  exact ⟨n, s, q, hn, hs, hq⟩

/-- The score of an arm with observations. -/
theorem Bandit.WellFormed.exists_played_score {b : Bandit} (wf : b.WellFormed)
    (ln : Float → Float) {i : Nat} {n s : Float} {q : Option Float}
    (hn : b.stats.counts[i]? = some n) (hs : b.stats.rewards[i]? = some s)
    (hq : b.stats.squares.map (·[i]?) = q.map some) (played : ¬ n ≤ 0) :
    ∃ score, (b.scores ln)[i]? = some score ∧
      SameButZero score (b.algorithm.formula (s / n) (q.elim 0 (· / n))
        (logTotal ln b.stats.total.toFloat / n)) := by
  refine ⟨_, getElem?_scores b.algorithm ln hn hs hq (decide_eq_false played), ?_⟩
  refine played_score b.algorithm ?_ (wf.proper.rewards s (List.mem_of_getElem? hs)) ?_
  · rintro rfl
    exact played (by decide)
  · intro x hx
    obtain rfl := Option.mem_def.mp hx
    obtain ⟨kept, given, entry⟩ := Option.map_eq_some_iff.mp hq
    exact wf.proper.squares kept given x (List.mem_of_getElem? entry)

/-- The scores of a bandit are the plain formulas, arm by arm, and each depends on nothing
but the number of all observations and the totals of its own arm. -/
theorem score_eq_formula {ln : Float → Float} (law : LogLaw ln) {b : Bandit}
    (reachable : b.Reachable) (alg : Algorithm) {i : Nat} (hi : i < b.size) :
    ∃ (n s : Float) (q : Option Float) (score : Float), b.stats.counts[i]? = some n ∧
      b.stats.rewards[i]? = some s ∧ b.stats.squares.map (·[i]?) = q.map some ∧
      (alg.scores ln b.stats)[i]? = some score ∧
      (n ≤ 0 → score =
        if n.isFinite ∧ s.isFinite ∧ (alg.tracksVariance = true → ∀ x ∈ q, x.isFinite) then infinity
        else nan) ∧
      (¬ n ≤ 0 → SameButZero score (alg.formula (s / n) (q.elim 0 (· / n))
        (ln (b.stats.total.toFloat + 1) / n))) ∧
      ∀ (st : Stats) (j : Nat), st.total = b.stats.total → st.counts[j]? = some n →
        st.rewards[j]? = some s → st.squares.map (·[j]?) = q.map some →
        (alg.scores ln st)[j]? = some score := by
  have wf := reachable.wellFormed
  obtain ⟨n, s, q, hn, hs, hq⟩ := wf.exists_entries hi
  refine ⟨n, s, q, _, hn, hs, hq, getElem?_scores alg ln hn hs hq rfl, ?_, ?_, ?_⟩
  · intro masked
    rw [decide_eq_true masked]
    exact unplayed_score alg (law.within _)
  · intro played
    rw [decide_eq_false played]
    refine played_score alg ?_ ?_ ?_
    · rintro rfl
      exact played (by decide)
    · exact wf.proper.rewards s (List.mem_of_getElem? hs)
    · intro x hx
      obtain rfl := Option.mem_def.mp hx
      obtain ⟨kept, given, entry⟩ := Option.map_eq_some_iff.mp hq
      exact wf.proper.squares kept given x (List.mem_of_getElem? entry)
  · intro st j total hn' hs' hq'
    rw [getElem?_scores alg ln hn' hs' hq' rfl, total]

/-- After one observation of the first of two arms, the second one still scores infinity. -/
theorem score_eq_formula_of_two_arms : ∃ (ln : Float → Float) (b : Bandit), LogLaw ln ∧
    ln 2 = 0.6931471805599453 ∧ b.Reachable ∧ b.stats.total = 1 ∧
    (Algorithm.tuned.scores ln b.stats)[1]? = some infinity := by
  have law : LogLaw fun x => if x = 2 then 0.6931471805599453 else 0 := by
    constructor
    · intro x _ _
      split <;> decide
    · intro x _ least
      split
      · rename_i two
        rw [two]
        decide
      · exact zero_le_of_one_le least
  obtain ⟨start, hs, created, -⟩ :=
    Bandit.exists_create (.count 2) .tuned (by decide) (by decide)
  obtain ⟨b, reached⟩ : ∃ b, start.history [.operation (.single (.ofInt 0) 1)] = b := ⟨_, rfl⟩
  have reachable : b.Reachable := ⟨_, _, _, created, reached⟩
  have totals : b.stats = ⟨1, [1, 0], [1, 0], some [1, 0]⟩ ∧ b.size = 2 := by
    rw [← reached, ← hs]
    decide +kernel
  obtain ⟨n, s, q, score, hn, hs, hq, entry, masked, -, -⟩ :=
    score_eq_formula law reachable .tuned (i := 1) (by rw [totals.2]; decide)
  rw [totals.1] at hn hs hq
  obtain rfl : 0 = n := Option.some_inj.mp hn
  obtain rfl : 0 = s := Option.some_inj.mp hs
  obtain rfl : some 0 = q := Option.map_injective (Option.some_injective _) hq
  refine ⟨_, b, law, by simp, reachable, by rw [totals.1], entry.trans (congrArg some ?_)⟩
  rw [masked (by decide)]
  exact if_pos (by decide)

end UpperConfidence
