import UpperConfidence.Proofs.Bandit.Transfer
import UpperConfidence.Proofs.Score.Unplayed

/-!
# Scores that are numbers

A score is not a number if the root of something negative is taken, or if infinities
cancel. The plain bound takes no such root. The metric bound takes one of the average,
so it needs rewards that are not negative. The tuned bound takes one of a variance
estimate, and for rewards that are zero or one this is the average minus its square:
as long as the sum of the rewards is at most the count, the average is at most one,
its rounded square is at most the average, and the estimate is not negative. Among
scores that are all numbers, the chosen one is the greatest.
-/

namespace UpperConfidence

open Double

/-! ## Formulas -/

section Formulas

variable {a v L : Float}

theorem within_root (hL : Within 7 L) : Within 7 (2 * L).sqrt := by
  have twice : Within 10 (2 * L) := within_mul (by omega) within_two hL
  exact (within_sqrt (by omega) twice).mono (by omega)

theorem isNaN_plainFormula (ha : a.isFinite = true) (hL : Within 7 L) :
    (Algorithm.ucb1.formula a v L).isNaN = false := by
  obtain ⟨α, hα⟩ := exists_value ha
  obtain ⟨ρ, hρ, -⟩ := (within_root hL).exists_value
  exact (rounds_add hα hρ).number

theorem isNaN_metricFormula (ha : a.isFinite = true) (nonneg : 0 ≤ a) (hL : Within 7 L) :
    (Algorithm.metric.formula a v L).isNaN = false := by
  obtain ⟨α, hα⟩ := exists_value ha
  obtain ⟨l, hl, l_nonneg⟩ := hL.exists_value
  have product := nonneg_mul hα hl ((le_iff_value value_zero hα).mp nonneg) l_nonneg
  have width : 0 ≤ L := (le_iff_value value_zero hl).mpr l_nonneg
  exact (numbers_of_le (nonneg_add (nonneg_add nonneg (nonneg_sqrt product)) width)).2

/-- With an average between zero and one that is also the average of the squares, the variance
estimate is not negative. -/
theorem within_variance (nonneg : 0 ≤ a) (le : a ≤ 1) : Within 1 (a - a * a) := by
  have one : Within 1 1 := ⟨rfl, by decide⟩
  obtain ⟨α, hα, α_nonneg, α_le⟩ := exists_value_of_le value_zero value_one nonneg le
  have square := rounds_mul hα hα
  have lower := square.nonneg (by exact_mod_cast mul_self_nonneg α)
  have upper : a * a ≤ a :=
    square.high a α hα (by exact_mod_cast mul_le_of_le_one_right α_nonneg α_le)
  obtain ⟨β, hβ, β_nonneg, β_le⟩ := exists_value_of_le value_zero hα lower upper
  have difference := rounds_sub hα hβ
  refine one.of_le (difference.nonneg ?_) (difference.high 1 1 value_one ?_)
  · exact_mod_cast sub_nonneg.mpr β_le
  · have : α - β ≤ 1 := by linarith
    exact_mod_cast this

/-- The tuned bound of such an average is finite and not below the average. -/
theorem tunedFormula_of_unit (nonneg : 0 ≤ a) (le : a ≤ 1) (hL : Within 7 L) :
    (Algorithm.tunedBernoulli.formula a a L).isFinite = true ∧
      a ≤ Algorithm.tunedBernoulli.formula a a L := by
  have one : Within 1 1 := ⟨rfl, by decide⟩
  have estimate : Within 9 (a - a * a + (2 * L).sqrt) :=
    within_add (by omega) ((within_variance nonneg le).mono (by omega)) (within_root hL)
  have product := within_mul (by omega) hL estimate
  have radius : Within 10 (L * (a - a * a + (2 * L).sqrt)).sqrt :=
    (within_sqrt (by omega) product).mono (by omega)
  have average : Within 10 a := (one.of_le nonneg le).mono (by omega)
  obtain ⟨α, hα, -⟩ := average.exists_value
  obtain ⟨ρ, hρ, ρ_nonneg⟩ := radius.exists_value
  refine ⟨(within_add (by omega) average radius).isFinite, (rounds_add hα hρ).low a α hα ?_⟩
  have : α ≤ α + ρ := by linarith
  exact_mod_cast this

end Formulas

theorem SameButZero.isNaN_eq {x y : Float} (h : SameButZero x y) : x.isNaN = y.isNaN := by
  rcases h with rfl | ⟨rfl, rfl⟩
  · rfl
  · decide

theorem SameButZero.le {x y a : Float} (h : SameButZero x y) (le : a ≤ y) : a ≤ x := by
  rcases h with rfl | ⟨rfl, rfl⟩
  · exact le
  · exact le_trans le (by decide)

theorem SameButZero.isFinite {x y : Float} (h : SameButZero x y) (finite : y.isFinite = true) :
    x.isFinite = true := by
  rcases h with rfl | ⟨rfl, rfl⟩
  · exact finite
  · decide

/-! ## Rewards between zero and the counts -/

namespace Values

/-- Each sum of rewards is between zero and its count. -/
def Between (rewards counts : Values) : Prop :=
  List.Forall₂ (fun s n => 0 ≤ s ∧ s ≤ n) rewards counts

/-- A sum stays between zero and its count, since the counts are added without rounding. -/
theorem add_between {s r c d : Float} {m n : ℕ} (hc : value c = some (m : ℚ))
    (hd : value d = some (n : ℚ)) (bound : m + n ≤ 2 ^ 53) (first : 0 ≤ s ∧ s ≤ c)
    (second : 0 ≤ r ∧ r ≤ d) : 0 ≤ s + r ∧ s + r ≤ c + d := by
  obtain ⟨σ, hs, s_nonneg, s_le⟩ := exists_value_of_le value_zero hc first.1 first.2
  obtain ⟨ρ, hr, r_nonneg, r_le⟩ := exists_value_of_le value_zero hd second.1 second.2
  have sum := rounds_add hs hr
  refine ⟨sum.nonneg (by exact_mod_cast add_nonneg s_nonneg r_nonneg),
    sum.high _ _ (value_add_count hc hd bound) ?_⟩
  have : σ + ρ ≤ m + n := add_le_add s_le r_le
  exact_mod_cast this

theorem Between.add {rewards rewards' counts counts' : Values} {m n : ℕ}
    (h : Between rewards counts) (h' : Between rewards' counts') (hc : counts.Counting m)
    (hc' : counts'.Counting n) (bound : m + n ≤ 2 ^ 53) :
    Between (rewards.add rewards') (counts.add counts') := by
  induction h generalizing rewards' counts' m n with
  | nil => exact .nil
  | cons first _ ih =>
    cases h' with
    | nil => exact .nil
    | cons second rest =>
      obtain ⟨k, m, hx, tail, rfl⟩ := counting_cons_iff.mp hc
      obtain ⟨l, n, hy, tail', rfl⟩ := counting_cons_iff.mp hc'
      exact .cons (add_between hx hy (by omega) first second) (ih rest tail tail' (by omega))

theorem between_zeros (n : ℕ) : Between (zeros n) (zeros n) := by
  rw [Between, List.forall₂_same]
  intro x mem
  obtain rfl := List.eq_of_mem_replicate mem
  decide

theorem Between.spread {named : List ArmId} {rewards counts : Values} (h : Between rewards counts)
    (nodup : named.Nodup) (length : counts.length = named.length) (ids : List ArmId) :
    Between (spread ids named rewards) (spread ids named counts) := by
  rw [Between, Values.spread, Values.spread, List.forall₂_map_left_iff,
    List.forall₂_map_right_iff, List.forall₂_same]
  intro arm _
  by_cases mem : arm ∈ named
  · obtain ⟨k, hk, rfl⟩ := List.getElem_of_mem mem
    have kc : k < counts.length := length ▸ hk
    have kr : k < rewards.length := h.length_eq ▸ kc
    rw [lookup_zip_getElem nodup hk kc, lookup_zip_getElem nodup hk kr]
    exact (List.forall₂_iff_get.mp h).2 k kr kc
  · rw [lookup_zip_of_notMem mem, lookup_zip_of_notMem mem]
    decide

end Values

/-- Rewards that are zero or one, or sums of such rewards. -/
def Operation.Bernoulli : Operation → Prop
  | .batch given => given.rewards.Between given.counts
  | .single _ reward => (reward == 0) = true ∨ (reward == 1) = true

namespace Bandit

variable {b b' : Bandit} {op : Operation} {m n : ℕ}

theorem between_values (bernoulli : op.Bernoulli) (a : Algorithm) :
    (op.values a).rewards.Between (op.values a).counts := by
  cases op with
  | batch given => exact bernoulli
  | single arm reward =>
    refine .cons ?_ .nil
    rcases bernoulli with zero | one
    · have value := value_of_beq zero value_zero
      rw [le_iff_value value_zero value, le_iff_value value value_one]
      norm_num
    · have value := value_of_beq one value_one
      rw [le_iff_value value_zero value, le_iff_value value value_one]
      norm_num

/-- An accepted operation keeps the sums of the rewards between zero and the counts. -/
theorem between_step (wf : b.WellFormed) (tallied : b.Tallied m)
    (h : b.stats.rewards.Between b.stats.counts) (accepted : b.step op = (b', .ok ()))
    (bernoulli : op.Bernoulli) (counts : op.counts.Counting n) (bound : m + n ≤ 2 ^ 53) :
    b'.stats.rewards.Between b'.stats.counts := by
  obtain ⟨c, contributed⟩ := exists_contribution accepted
  have place := placeable_of_contribution wf.toReady contributed
  obtain ⟨-, rfl⟩ := grow_of_accepted wf.toReady accepted
  refine h.add ?_ tallied.counts (counting_spread wf.toReady place counts) bound
  rw [spread_eq]
  exact (between_values bernoulli b.algorithm).spread place.nodup place.length.counts b.ids

theorem between_foldlM (wf : b.WellFormed) (tallied : b.Tallied m)
    (h : b.stats.rewards.Between b.stats.counts) {ops : List Operation}
    (accepted : ops.foldlM apply b = .ok b') (bernoulli : ∀ op ∈ ops, op.Bernoulli)
    (counts : Values.Counting (ops.flatMap Operation.counts) n) (bound : m + n ≤ 2 ^ 53) :
    b'.stats.rewards.Between b'.stats.counts := by
  induction ops generalizing b m n with
  | nil =>
    obtain rfl : b = b' := Except.ok.inj accepted
    exact h
  | cons op ops ih =>
    obtain ⟨b₁, first, rest⟩ := foldlM_apply_cons accepted
    obtain ⟨here, later⟩ := List.forall_mem_cons.mp bernoulli
    rw [List.flatMap_cons] at counts
    obtain ⟨k, l, head, tail, rfl⟩ := Values.counting_append_iff.mp counts
    have kept := wf.step op
    rw [first] at kept
    exact ih kept (tallied.step wf first head (by omega))
      (between_step wf tallied h first here head (by omega)) rest later tail (by omega)

/-! ## Scores -/

/-- Totals without an infinity or a value that is not a number, as far as the algorithm reads
them. -/
structure FiniteTotals (b : Bandit) : Prop where
  rewards : ∀ s ∈ b.stats.rewards, s.isFinite = true
  squares : b.algorithm.tracksVariance = true → ∀ qs ∈ b.stats.squares, ∀ q ∈ qs,
    q.isFinite = true

/-- The totals of an arm with `k` of the `n` observations. -/
structure Played (b : Bandit) (n i : ℕ) (c s : Float) (q : Option Float) (k : ℕ) : Prop where
  count : b.stats.counts[i]? = some c
  reward : b.stats.rewards[i]? = some s
  square : b.stats.squares.map (·[i]?) = q.map some
  value : value c = some (k : ℚ)
  pos : 0 < k
  le : k ≤ n

section Score

variable (wf : b.WellFormed) (tallied : b.Tallied n) (bound : n ≤ 2 ^ 53) {ln : Float → Float}
  (law : LogBound ln) {i k : ℕ} {c s : Float} {q : Option Float}

theorem Played.exists_score (played : b.Played n i c s q k) (wf : b.WellFormed)
    (ln : Float → Float) : ∃ x, (b.scores ln)[i]? = some x ∧ SameButZero x (b.algorithm.formula
      (s / c) (q.elim 0 (· / c)) (logTotal ln b.stats.total.toFloat / c)) := by
  refine wf.exists_played_score ln played.count played.reward played.square ?_
  rw [le_iff_value played.value value_zero, not_le]
  exact_mod_cast played.pos

theorem Played.within_width (played : b.Played n i c s q k) (tallied : b.Tallied n)
    (bound : n ≤ 2 ^ 53) (law : LogBound ln) : Within 7 (logTotal ln b.stats.total.toFloat / c) :=
  within_div (within_logTotal law tallied bound) played.value (by exact_mod_cast played.pos)

include wf tallied

theorem exists_played (hi : i < b.size) (played : b.stats.counts[i]? ≠ some 0) :
    ∃ c s q k, b.Played n i c s q k := by
  obtain ⟨c, s, q, hc, hs, hq⟩ := wf.exists_entries hi
  obtain ⟨k, hk, le, ⟨rfl, -⟩ | ⟨-, pos⟩⟩ := exists_count wf tallied hc
  · exact absurd hc played
  · exact ⟨c, s, q, k, hc, hs, hq, hk, pos, le⟩

include bound law

theorem score_of_unplayed_of_finite (finite : b.FiniteTotals)
    (none : b.stats.counts[i]? = some 0) : (b.scores ln)[i]? = some infinity := by
  refine score_of_finite wf ((within_logTotal law tallied bound).mono (by omega)) none ?_ ?_
  · exact fun s hs => finite.rewards s (List.mem_of_getElem? hs)
  · exact fun tracks qs given q hq => finite.squares tracks qs given q (List.mem_of_getElem? hq)

/-- If the formula gives numbers for the arms with observations, all scores are numbers. -/
theorem numbers_of_played (finite : b.FiniteTotals)
    (numbers : ∀ (i : ℕ) c s q k, b.Played n i c s q k → (b.algorithm.formula (s / c)
      (q.elim 0 (· / c)) (logTotal ln b.stats.total.toFloat / c)).isNaN = false) :
    ∀ x ∈ b.scores ln, x.isNaN = false := by
  intro x mem
  obtain ⟨i, entry⟩ := List.mem_iff_getElem?.mp mem
  have size : i < b.size := by
    obtain ⟨hi, -⟩ := List.getElem?_eq_some_iff.mp entry
    rwa [scores, Algorithm.length_scores wf.fits] at hi
  by_cases none : b.stats.counts[i]? = some 0
  · rw [score_of_unplayed_of_finite wf tallied bound law finite none, Option.some_inj] at entry
    rw [← entry]
    exact isNaN_infinity
  · obtain ⟨c, s, q, k, played⟩ := exists_played wf tallied size none
    obtain ⟨y, entry', same⟩ := played.exists_score wf ln
    obtain rfl := Option.some_inj.mp (entry.symm.trans entry')
    rw [same.isNaN_eq]
    exact numbers i c s q k played

omit tallied bound law in
/-- Among scores that are all numbers, the score of the chosen arm is the greatest. -/
theorem action_of_numbers (numbers : ∀ x ∈ b.scores ln, x.isNaN = false) :
    ∃ (j : ℕ) (arm : ArmId) (m : Float), b.ids[j]? = some arm ∧ b.action ln = .ok arm ∧
      (b.scores ln)[j]? = some m ∧ ∀ x ∈ b.scores ln, x ≤ m := by
  have length : (b.scores ln).length = b.ids.length := Algorithm.length_scores wf.fits
  obtain ⟨x, mem⟩ : ∃ x, x ∈ b.scores ln := by
    refine List.exists_mem_of_ne_nil _ (List.length_pos_iff.mp ?_)
    rw [length]
    exact List.length_pos_iff.mpr wf.nonempty
  obtain ⟨m, chosen, -, greatest⟩ := Values.exists_firstMaximum ⟨x, mem, numbers x mem⟩
  obtain ⟨arm, place, action⟩ := wf.action ln
  exact ⟨_, arm, m, place, action, chosen, fun y mem => greatest y mem (numbers y mem)⟩

end Score

/-! ## Totals that make numbers -/

/-- Totals that an algorithm makes numbers of. -/
def Scorable (b : Bandit) : Prop :=
  match b.algorithm with
  | .ucb1 => ∀ s ∈ b.stats.rewards, s.isFinite = true
  | .metric => ∀ s ∈ b.stats.rewards, s.isFinite = true ∧ 0 ≤ s
  | .tuned => False
  | .tunedBernoulli =>
    b.stats.rewards.Between b.stats.counts ∧ b.stats.squares = some b.stats.rewards

section Scorable

variable (wf : b.WellFormed) (tallied : b.Tallied n) (bound : n ≤ 2 ^ 53) {ln : Float → Float}
  (law : LogBound ln) (scorable : b.Scorable) {i k : ℕ} {c s : Float} {q : Option Float}
include wf tallied scorable

theorem finiteTotals_of_scorable : b.FiniteTotals := by
  have between (h : b.stats.rewards.Between b.stats.counts) :
      ∀ s ∈ b.stats.rewards, s.isFinite = true := by
    intro s mem
    obtain ⟨i, hi, rfl⟩ := List.getElem_of_mem mem
    have hc : i < b.stats.counts.length := h.length_eq ▸ hi
    obtain ⟨k, hk, -, -⟩ := exists_count wf tallied (List.getElem?_eq_getElem hc)
    obtain ⟨nonneg, le⟩ := (List.forall₂_iff_get.mp h).2 i hi hc
    obtain ⟨v, hv, -⟩ := exists_value_of_le value_zero hk nonneg le
    exact isFinite_of_value hv
  unfold Scorable at scorable
  cases algorithm : b.algorithm with
  | ucb1 => exact ⟨by simpa [algorithm] using scorable, by simp [algorithm, Algorithm.tracksVariance]⟩
  | metric =>
    simp only [algorithm] at scorable
    exact ⟨fun s mem => (scorable s mem).1, by simp [algorithm, Algorithm.tracksVariance]⟩
  | tuned => simp [algorithm] at scorable
  | tunedBernoulli =>
    simp only [algorithm] at scorable
    refine ⟨between scorable.1, fun _ qs given => ?_⟩
    rw [scorable.2] at given
    obtain rfl := Option.some_inj.mp given
    exact between scorable.1

include bound law

omit wf in
/-- The tuned bound of rewards that are zero or one is finite and at least the average. -/
theorem Played.formula_of_bernoulli (played : b.Played n i c s q k)
    (bernoulli : b.algorithm = .tunedBernoulli) :
    (b.algorithm.formula (s / c) (q.elim 0 (· / c))
      (logTotal ln b.stats.total.toFloat / c)).isFinite = true ∧
    s / c ≤ b.algorithm.formula (s / c) (q.elim 0 (· / c))
      (logTotal ln b.stats.total.toFloat / c) := by
  simp only [Scorable, bernoulli] at scorable
  obtain ⟨between, squares⟩ := scorable
  have one : (1 : ℚ) ≤ k := by exact_mod_cast played.pos
  obtain ⟨nonneg, le⟩ : 0 ≤ s ∧ s ≤ c := by
    obtain ⟨hi, rfl⟩ := List.getElem?_eq_some_iff.mp played.reward
    obtain ⟨hi', rfl⟩ := List.getElem?_eq_some_iff.mp played.count
    exact (List.forall₂_iff_get.mp between).2 i hi hi'
  obtain ⟨σ, hσ, σ_nonneg, σ_le⟩ := exists_value_of_le value_zero played.value nonneg le
  have quotient := rounds_div hσ played.value (by linarith)
  have lower : 0 ≤ s / c := nonneg_div hσ played.value σ_nonneg (by linarith)
  have upper : s / c ≤ 1 :=
    quotient.high 1 1 value_one (by exact_mod_cast div_le_one_of_le₀ σ_le (by linarith))
  obtain rfl : q = some s := by
    have square := played.square
    rw [squares, Option.map_some, played.reward] at square
    cases q with
    | none => cases square
    | some x => exact congrArg some (Option.some_inj.mp (Option.some_inj.mp square.symm))
  rw [bernoulli]
  exact tunedFormula_of_unit lower upper (played.within_width tallied bound law)

theorem numbers_of_scorable : ∀ x ∈ b.scores ln, x.isNaN = false := by
  refine numbers_of_played wf tallied bound law (finiteTotals_of_scorable wf tallied scorable) ?_
  intro i c s q k played
  have width := played.within_width tallied bound law
  have one : (1 : ℚ) ≤ k := by exact_mod_cast played.pos
  have finite := (finiteTotals_of_scorable wf tallied scorable).rewards s
    (List.mem_of_getElem? played.reward)
  obtain ⟨σ, hσ⟩ := exists_value finite
  obtain ⟨α, hα, -⟩ := exists_value_div hσ played.value one
  cases algorithm : b.algorithm with
  | ucb1 => exact isNaN_plainFormula (isFinite_of_value hα) width
  | metric =>
    simp only [Scorable, algorithm] at scorable
    have nonneg := (scorable s (List.mem_of_getElem? played.reward)).2
    have average := nonneg_div hσ played.value ((le_iff_value value_zero hσ).mp nonneg) (by linarith)
    exact isNaN_metricFormula (isFinite_of_value hα) average width
  | tuned => simp [Scorable, algorithm] at scorable
  | tunedBernoulli =>
    obtain ⟨regular, -⟩ := played.formula_of_bernoulli tallied bound law scorable algorithm
    rw [algorithm] at regular
    obtain ⟨v, hv⟩ := exists_value regular
    exact isNaN_of_value hv

end Scorable

/-! ## Histories -/

/-- Rewards that are zero or one, alone or summed up, keep the sums of the rewards between zero
and the counts, and the sums of the squares equal to those of the rewards. -/
theorem scorable_of_bernoulli {config : Config} {start : Bandit}
    (created : create config = .ok start) {activities : List Activity}
    (counts : Values.Counting ((start.accepted activities).flatMap Operation.counts) n)
    (bound : n ≤ 2 ^ 53) (algorithm : config.algorithm = .tunedBernoulli)
    (bernoulli : ∀ op ∈ start.accepted activities, op.Bernoulli) :
    (start.history activities).stats.rewards.Between (start.history activities).stats.counts ∧
      (start.history activities).stats.squares = some (start.history activities).stats.rewards := by
  refine ⟨?_, squares_eq_rewards_of_history created algorithm fun arm r mem => bernoulli _ mem⟩
  have wf := (wellFormed_of_create created).1
  refine between_foldlM wf (tallied_of_create created) ?_ (wf.foldlM_accepted activities) bernoulli
    counts (by omega)
  rw [stats_of_create created]
  exact Values.between_zeros _

/-- As long as the rewards are such that an algorithm makes numbers of them, every score is a
number, arms without observations score infinity, and the chosen arm has the greatest score.
With rewards that are zero or one the sums of the rewards are between zero and the counts, and the
tuned bound of an arm with observations is finite and at least its average. -/
theorem scores_of_history {config : Config} {start b : Bandit}
    (created : create config = .ok start) (activities : List Activity)
    (reached : start.history activities = b)
    (counts : Values.Counting ((start.accepted activities).flatMap Operation.counts) n)
    (bound : n ≤ 2 ^ 53) {ln : Float → Float} (law : LogBound ln)
    (plain : b.algorithm = .ucb1 → ∀ s ∈ b.stats.rewards, s.isFinite = true)
    (metric : b.algorithm = .metric → ∀ s ∈ b.stats.rewards, s.isFinite = true ∧ 0 ≤ s)
    (bernoulli : b.algorithm = .tunedBernoulli → ∀ op ∈ start.accepted activities, op.Bernoulli)
    (tuned : b.algorithm ≠ .tuned) :
    (∀ x ∈ b.scores ln, x.isNaN = false) ∧
    (∀ i : ℕ, b.stats.counts[i]? = some 0 → (b.scores ln)[i]? = some infinity) ∧
    (∃ (j : ℕ) (arm : ArmId) (m : Float), b.ids[j]? = some arm ∧ b.action ln = .ok arm ∧
      (b.scores ln)[j]? = some m ∧ ∀ x ∈ b.scores ln, x ≤ m) ∧
    (b.algorithm = .tunedBernoulli → b.stats.rewards.Between b.stats.counts ∧
      ∀ i < b.size, b.stats.counts[i]? ≠ some 0 → ∃ a x, b.averages[i]? = some a ∧
        (b.scores ln)[i]? = some x ∧ x.isFinite = true ∧ a ≤ x) := by
  obtain ⟨wf, -, same⟩ := (wellFormed_of_create created).1.history activities
  obtain ⟨-, -, algorithm⟩ := wellFormed_of_create created
  have tallied := tallied_of_history created counts bound
  rw [reached] at wf same tallied
  have unit (h : b.algorithm = .tunedBernoulli) := scorable_of_bernoulli created counts bound
    (algorithm.symm.trans (same.symm.trans h)) (bernoulli h)
  rw [reached] at unit
  have scorable : b.Scorable := by
    unfold Scorable
    cases given : b.algorithm with
    | ucb1 => exact plain given
    | metric => exact metric given
    | tuned => exact absurd given tuned
    | tunedBernoulli => exact unit given
  have numbers := numbers_of_scorable wf tallied bound law scorable
  refine ⟨numbers, fun i none => ?_, action_of_numbers wf numbers, fun h => ⟨(unit h).1, ?_⟩⟩
  · exact score_of_unplayed_of_finite wf tallied bound law
      (finiteTotals_of_scorable wf tallied scorable) none
  · intro i hi observed
    obtain ⟨c, s, q, k, played⟩ := exists_played wf tallied hi observed
    obtain ⟨x, entry, same⟩ := played.exists_score wf ln
    obtain ⟨finite, le⟩ := played.formula_of_bernoulli tallied bound law scorable h
    refine ⟨s / c, x, ?_, entry, same.isFinite finite, same.le le⟩
    simp [averages, Stats.averages, Values.div, List.getElem?_zipWith, played.count, played.reward]

/-- One arm with a success out of two plays, and one without plays. -/
theorem scores_of_history_of_two_arms : ∃ (ln : Float → Float) (b : Bandit),
    ln 3 = 1.0986122886681098 ∧ b.Reachable ∧ b.algorithm = .tunedBernoulli ∧
    b.stats.counts = [2, 0] ∧ b.stats.rewards = [1, 0] ∧
    ∃ x, (b.scores ln)[0]? = some x ∧ x.isFinite = true ∧ 0.5 ≤ x ∧
      (b.scores ln)[1]? = some infinity ∧ b.action ln = .ok (.ofInt 1) := by
  obtain ⟨ln, given, law, -⟩ := exists_logBound 3 1.0986122886681098 (by decide) (by decide)
  obtain ⟨start, hs, created, -⟩ := exists_create (.count 2) .tunedBernoulli (by decide) (by decide)
  obtain ⟨ops, hops⟩ : ∃ ops : List Operation,
      [.batch ⟨[1, 0], [0, 0], none, none⟩, .single (.ofInt 0) 1] = ops := ⟨_, rfl⟩
  obtain ⟨b, reached⟩ : ∃ b, start.history (ops.map .operation) = b := ⟨_, rfl⟩
  have accepted : start.accepted (ops.map .operation) = ops := by
    rw [← hs, ← hops]
    decide +kernel
  have counts : Values.Counting ((start.accepted (ops.map .operation)).flatMap Operation.counts) 2 := by
    rw [accepted, ← hops]
    exact ⟨[1, 0, 1], .cons (by simp) (.cons (by simp) (.cons (by simp) .nil)), rfl⟩
  have bernoulli : ∀ op ∈ start.accepted (ops.map .operation), op.Bernoulli := by
    rw [accepted, ← hops]
    intro op mem
    rcases (by simpa using mem : op = _ ∨ op = _) with rfl | rfl
    · exact .cons (by decide) (.cons (by decide) .nil)
    · exact .inr (by decide)
  have state : b.stats = ⟨2, [2, 0], [1, 0], some [1, 0]⟩ ∧ b.size = 2 ∧
      b.algorithm = .tunedBernoulli ∧ b.ids = [.ofInt 0, .ofInt 1] := by
    rw [← reached, ← hs, ← hops]
    decide +kernel
  obtain ⟨stats, size, algorithm, ids⟩ := state
  obtain ⟨-, unplayed, ⟨j, arm, m, place, action, chosen, greatest⟩, unit⟩ :=
    scores_of_history created _ reached counts (by decide) law (by simp [algorithm])
      (by simp [algorithm]) (fun _ => bernoulli) (by simp [algorithm])
  have second : (b.scores ln)[1]? = some infinity := unplayed 1 (by simp [stats])
  have played : b.stats.counts[0]? ≠ some 0 := by
    rw [stats]
    decide
  obtain ⟨a, x, average, first, finite, le⟩ := (unit algorithm).2 0 (by omega) played
  obtain rfl : 0.5 = a := by
    have entry : b.averages[0]? = some 0.5 := by
      rw [Bandit.averages, stats]
      decide +kernel
    exact Option.some_inj.mp (entry.symm.trans average)
  refine ⟨ln, b, given, ⟨_, _, _, created, reached⟩, algorithm, by rw [stats], by rw [stats], x,
    first, finite, le, second, ?_⟩
  rw [ids] at place
  have arms : j = 0 ∨ j = 1 := by
    obtain ⟨hj, -⟩ := List.getElem?_eq_some_iff.mp place
    simp only [List.length_cons, List.length_nil] at hj
    omega
  rcases arms with rfl | rfl
  · obtain rfl := Option.some_inj.mp (first.symm.trans chosen)
    obtain ⟨v, hv⟩ := exists_value finite
    have less : x < infinity := lt_infinity (isNaN_of_value hv) (by rintro rfl; cases finite)
    exact absurd less (not_lt_of_le (greatest infinity (List.mem_of_getElem? second)))
  · rwa [← Option.some_inj.mp place] at action

end Bandit

end UpperConfidence
