import UpperConfidence.Proofs.Bandit.Accepted
import UpperConfidence.Proofs.Bandit.Column
import UpperConfidence.Proofs.Double.Operation
import UpperConfidence.Proofs.Double.Tame
import UpperConfidence.Proofs.Score.Formula
import UpperConfidence.Proofs.Values.FirstMaximum

/-!
# Unplayed arms come first

As long as counts are natural numbers and the other totals are of moderate size, the
score of an arm with observations is never infinite: the largest intermediate result
is the logarithm times the variance estimate, whose magnitude stays below `2 ^ 1022`.
An arm without observations scores infinity, so the first of them is chosen.
-/

namespace UpperConfidence

open Double

/-- The law of the natural logarithm up to `2 ^ 54` that keeps scores finite. -/
structure LogBound (ln : Float → Float) : Prop where
  nonneg : ∀ x, 1 ≤ x → x ≤ 18014398509481984 → 0 ≤ ln x
  le : ∀ x, 1 ≤ x → x ≤ 18014398509481984 → ln x ≤ 64

/-- One value of the logarithm extends to a function with this law. -/
theorem exists_logBound (p a : Float) (least : 0.5 ≤ a) (most : a ≤ 64) :
    ∃ ln : Float → Float, ln p = a ∧ LogBound ln ∧ ∀ x, 0.5 ≤ ln x := by
  obtain ⟨ln, hln⟩ : ∃ ln : Float → Float, (fun x => if x = p then a else 1) = ln := ⟨_, rfl⟩
  have cases (x : Float) : ln x = a ∨ ln x = 1 := by
    rw [← hln]
    exact (ite_eq_or_eq _ _ _)
  have low (x : Float) : 0.5 ≤ ln x := by
    rcases cases x with same | same <;> rw [same]
    · exact least
    · decide
  have high (x : Float) : ln x ≤ 64 := by
    rcases cases x with same | same <;> rw [same]
    · exact most
    · decide
  refine ⟨ln, by rw [← hln]; exact if_pos rfl, ⟨fun x _ _ => ?_, fun x _ _ => high x⟩, low⟩
  exact le_trans (by decide) (low x)

/-- With averages below `2 ^ 504` no bound is infinite. -/
theorem tame_formula (alg : Algorithm) {a v L : Float} (ha : Tame 504 a) (hv : Tame 504 v)
    (hL : Tame 8 L) : Tame 1024 (alg.formula a v L) := by
  have twice : Tame 11 (2 * L) := (tame_mul (by omega) within_two.tame hL).mono (by omega)
  have root : Tame 7 (2 * L).sqrt := (tame_sqrt (by omega) twice).mono (by omega)
  cases alg with
  | ucb1 => exact (tame_add (by omega) ha (root.mono (by omega))).mono (by omega)
  | metric =>
    have product : Tame 513 (a * L) := (tame_mul (by omega) ha hL).mono (by omega)
    have radius : Tame 504 (a * L).sqrt := (tame_sqrt (by omega) product).mono (by omega)
    have sum : Tame 506 (a + (a * L).sqrt) := (tame_add (by omega) ha radius).mono (by omega)
    exact (tame_add (by omega) sum (hL.mono (by omega))).mono (by omega)
  | _ =>
    have square : Tame 1009 (a * a) := (tame_mul (by omega) ha ha).mono (by omega)
    have variance : Tame 1011 (v - a * a) :=
      (tame_sub (by omega) (hv.mono (by omega)) square).mono (by omega)
    have estimate : Tame 1013 (v - a * a + (2 * L).sqrt) :=
      (tame_add (by omega) variance (root.mono (by omega))).mono (by omega)
    have product : Tame 1022 (L * (v - a * a + (2 * L).sqrt)) :=
      (tame_mul (by omega) hL estimate).mono (by omega)
    have radius : Tame 512 (L * (v - a * a + (2 * L).sqrt)).sqrt :=
      (tame_sqrt (by omega) product).mono (by omega)
    exact (tame_add (by omega) (ha.mono (by omega)) radius).mono (by omega)

namespace Bandit

/-- Rewards and squares are below `2 ^ 503` in magnitude, or not numbers. Those of arms without
observations are finite and below `2 ^ 501`, which leaves room for one observation. -/
structure Moderate (b : Bandit) : Prop where
  tame : ∀ col ≠ Column.counts, ∀ xs ∈ b.stats.column col, ∀ x ∈ xs, Tame 503 x
  unplayed : ∀ col ≠ Column.counts, ∀ xs ∈ b.stats.column col, ∀ (i : ℕ) x, xs[i]? = some x →
    b.stats.counts[i]? = some 0 → ∃ v, value x = some v ∧ |v| < 2 ^ 501

theorem moderate_of_le {b : Bandit}
    (rewards : ∀ x ∈ b.stats.rewards, ∃ v, value x = some v ∧ |v| ≤ 2 ^ 500)
    (squares : ∀ qs ∈ b.stats.squares, ∀ x ∈ qs, ∃ v, value x = some v ∧ |v| ≤ 2 ^ 500) :
    b.Moderate := by
  have small : ∀ col ≠ Column.counts, ∀ xs ∈ b.stats.column col, ∀ x ∈ xs,
      ∃ v, value x = some v ∧ |v| < 2 ^ 501 := by
    intro col other xs hx x mem
    have below {v : ℚ} (h : |v| ≤ 2 ^ 500) : |v| < 2 ^ 501 :=
      h.trans_lt (pow_lt_pow_right₀ (by norm_num) (by omega))
    cases col with
    | counts => exact absurd rfl other
    | rewards =>
      obtain ⟨v, hv, le⟩ := rewards x (Option.some_inj.mp hx ▸ mem)
      exact ⟨v, hv, below le⟩
    | squares =>
      obtain ⟨v, hv, le⟩ := squares xs hx x mem
      exact ⟨v, hv, below le⟩
  refine ⟨fun col other xs hx x mem => ?_, fun col other xs hx i x entry _ => ?_⟩
  · have tame : Tame 501 x := .inr (small col other xs hx x mem)
    exact tame.mono (by omega)
  · exact small col other xs hx x (List.mem_of_getElem? entry)

/-- The positions of the arms without observations, in order. -/
def unplayed (b : Bandit) : List ℕ :=
  (List.range b.size).filter fun i => b.stats.counts[i]? = some 0

variable {b : Bandit} {n : ℕ} {ln : Float → Float}

/-- The number of observations is exact as a double. -/
theorem value_total (tallied : b.Tallied n) (bound : n ≤ 2 ^ 53) :
    value b.stats.total.toFloat = some (n : ℚ) := by
  rw [toFloat_eq_ofInt, tallied.total]
  exact value_ofNat bound

/-- One more than the number of observations, rounded, is where the law of the logarithm applies. -/
theorem total_add_one_mem (tallied : b.Tallied n) (bound : n ≤ 2 ^ 53) :
    1 ≤ b.stats.total.toFloat + 1 ∧ b.stats.total.toFloat + 1 ≤ 18014398509481984 := by
  have sum := rounds_add (value_total tallied bound) value_one
  have limit : value 18014398509481984 = some (2 ^ 54) := by
    have parts : parts 18014398509481984 = .finite .positive (2 ^ 52) 2 (by decide) := rfl
    simp only [value, parts, partsValue, apply_positive]
    norm_num
  have small : (n : ℝ) ≤ 2 ^ 53 := by exact_mod_cast bound
  have nonneg : (0 : ℝ) ≤ n := n.cast_nonneg
  constructor
  · refine sum.low 1 1 value_one ?_
    push_cast
    linarith
  · refine sum.high _ _ limit ?_
    push_cast
    linarith

/-- The logarithm in the scores is between zero and 64. -/
theorem within_logTotal (law : LogBound ln) (tallied : b.Tallied n) (bound : n ≤ 2 ^ 53) :
    Within 7 (logTotal ln b.stats.total.toFloat) := by
  obtain ⟨least, most⟩ := total_add_one_mem tallied bound
  have sixtyFour : Within 7 64 := ⟨rfl, by decide⟩
  exact sixtyFour.of_le (law.nonneg _ least most) (law.le _ least most)

/-- The count of an arm is a natural number, and it is zero or at least one. -/
theorem exists_count (wf : b.WellFormed) (tallied : b.Tallied n) {i : ℕ} {c : Float}
    (hc : b.stats.counts[i]? = some c) :
    ∃ k : ℕ, value c = some (k : ℚ) ∧ k ≤ n ∧ (c = 0 ∧ k = 0 ∨ ¬ c ≤ 0 ∧ 1 ≤ k) := by
  have mem := List.mem_of_getElem? hc
  obtain ⟨k, hk, le⟩ := tallied.counts.exists_entry mem
  refine ⟨k, hk, le, ?_⟩
  rcases Nat.eq_zero_or_pos k with rfl | pos
  · exact .inl ⟨(zero_or_negZero (by simpa using hk)).resolve_right (wf.proper.counts c mem), rfl⟩
  · refine .inr ⟨?_, pos⟩
    rw [le_iff_value hk value_zero, not_le]
    exact_mod_cast pos

/-- An arm without observations scores infinity if its other totals are finite. -/
theorem score_of_finite (wf : b.WellFormed) (log : Within 67 (logTotal ln b.stats.total.toFloat))
    {i : ℕ} (none : b.stats.counts[i]? = some 0)
    (rewards : ∀ s, b.stats.rewards[i]? = some s → s.isFinite = true)
    (squares : b.algorithm.tracksVariance = true → ∀ qs ∈ b.stats.squares, ∀ q, qs[i]? = some q →
      q.isFinite = true) : (b.scores ln)[i]? = some infinity := by
  obtain ⟨hi, -⟩ := List.getElem?_eq_some_iff.mp none
  obtain ⟨c, s, q, hc, hs, hq⟩ := wf.exists_entries (hi.trans_eq wf.fits.1)
  obtain rfl : 0 = c := Option.some_inj.mp (none.symm.trans hc)
  rw [scores, getElem?_scores b.algorithm ln hc hs hq (u := true) (by decide),
    unplayed_score b.algorithm log, if_pos]
  refine ⟨by decide, rewards s hs, fun tracks x hx => ?_⟩
  obtain rfl := Option.mem_def.mp hx
  obtain ⟨kept, given, entry⟩ := Option.map_eq_some_iff.mp hq
  exact squares tracks kept given x entry

section Score

variable (wf : b.WellFormed) (tallied : b.Tallied n) (bound : n < 2 ^ 53)
  (moderate : b.Moderate) (law : LogBound ln) {i : ℕ}
include wf tallied bound moderate law

theorem score_of_unplayed (none : b.stats.counts[i]? = some 0) :
    (b.scores ln)[i]? = some infinity := by
  have log := within_logTotal law tallied bound.le
  have finite {x : Float} (h : ∃ v, value x = some v ∧ |v| < 2 ^ 501) : x.isFinite = true := by
    obtain ⟨v, hv, -⟩ := h
    exact isFinite_of_value hv
  refine score_of_finite wf (log.mono (by omega)) none (fun s hs => ?_) fun _ qs given q hq => ?_
  · exact finite (moderate.unplayed .rewards (by decide) _ rfl i s hs none)
  · exact finite (moderate.unplayed .squares (by decide) qs given i q hq none)

theorem score_of_played (hi : i < b.size) (played : b.stats.counts[i]? ≠ some 0) :
    (b.scores ln)[i]? ≠ some infinity := by
  obtain ⟨c, s, q, hc, hs, hq⟩ := wf.exists_entries hi
  have log := within_logTotal law tallied bound.le
  have squares : ∀ x ∈ q, Tame 503 x := by
    intro x hx
    obtain rfl := Option.mem_def.mp hx
    obtain ⟨kept, given, entry⟩ := Option.map_eq_some_iff.mp hq
    exact moderate.tame .squares (by decide) kept given x (List.mem_of_getElem? entry)
  have reward := List.mem_of_getElem? hs
  obtain ⟨k, hk, -, ⟨rfl, -⟩ | ⟨unmasked, pos⟩⟩ := exists_count wf tallied hc
  · exact absurd hc played
  have one : (1 : ℚ) ≤ k := by exact_mod_cast pos
  have average {x : Float} (hx : Tame 503 x) : Tame 504 (x / c) := tame_div (by omega) hx hk one
  have variance : Tame 504 (q.elim 0 (· / c)) := by
    cases hx : q with
    | none => exact (within_zero 504).tame
    | some x => exact average (squares x hx)
  have tame : Tame 1024 (b.algorithm.formula (s / c) (q.elim 0 (· / c))
      (logTotal ln b.stats.total.toFloat / c)) :=
    tame_formula _ (average (moderate.tame .rewards (by decide) _ rfl s reward)) variance
      (tame_div (by omega) log.tame hk one)
  obtain ⟨score, entry, same⟩ := wf.exists_played_score ln hc hs hq unmasked
  rw [entry]
  intro infinite
  rw [Option.some_inj.mp infinite] at same
  rcases same with formula | ⟨zero, -⟩
  · exact tame.ne_infinity formula.symm
  · exact absurd zero (by decide)

end Score

theorem mem_unplayed_iff {i : ℕ} :
    i ∈ b.unplayed ↔ i < b.size ∧ b.stats.counts[i]? = some 0 := by
  simp [unplayed]

/-- The first of the unplayed arms comes before the others. -/
theorem lt_of_mem_unplayed {i j : ℕ} {us : List ℕ} (h : b.unplayed = i :: us) (mem : j ∈ us) :
    i < j := by
  have sorted : b.unplayed.Pairwise (· < ·) := List.pairwise_lt_range.filter _
  rw [h, List.pairwise_cons] at sorted
  exact sorted.1 j mem

/-- The first arm without observations is chosen. -/
theorem action_of_unplayed (wf : b.WellFormed) (tallied : b.Tallied n) (bound : n < 2 ^ 53)
    (moderate : b.Moderate) (law : LogBound ln) {i : ℕ} {us : List ℕ}
    (h : b.unplayed = i :: us) : ∃ arm, b.ids[i]? = some arm ∧ b.action ln = .ok arm := by
  obtain ⟨hi, none⟩ := mem_unplayed_iff.mp (h ▸ List.mem_cons_self)
  have here := score_of_unplayed wf tallied bound moderate law none
  have before : ∀ j < i, (b.scores ln)[j]? ≠ some infinity := by
    intro j hj
    refine score_of_played wf tallied bound moderate law (hj.trans hi) fun zero => ?_
    have mem := mem_unplayed_iff.mpr ⟨hj.trans hi, zero⟩
    rw [h] at mem
    rcases List.mem_cons.mp mem with rfl | later
    · exact lt_irrefl _ hj
    · exact absurd (lt_of_mem_unplayed h later) (by omega)
  obtain ⟨arm, place, action⟩ := wf.action ln
  rw [Values.firstMaximum_of_infinity here before] at place
  exact ⟨arm, place, action⟩

/-- No arm of a new bandit has observations. -/
theorem unplayed_of_create {config : Config} (created : create config = .ok b) :
    b.unplayed = List.range b.size := by
  rw [unplayed, List.filter_eq_self]
  intro i hi
  rw [List.mem_range] at hi
  rw [stats_of_create created]
  simp [Stats.fresh, Values.zeros, List.getElem?_replicate_of_lt hi]

end Bandit

end UpperConfidence
