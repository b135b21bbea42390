import UpperConfidence.Bandit.OneShot
import UpperConfidence.Proofs.Bandit.Accepted

/-!
# Transfer of totals

The totals of a bandit, given as one batch to a new bandit with the same arms and
the same algorithm, make it the same bandit. Totals are not negative zeros, so
adding them to zeros keeps them. The number of observations is not part of the
batch: it comes back as the sum of the counts, which is exact as long as the counts
are natural numbers that add up to at most `2 ^ 53`.
-/

namespace UpperConfidence

namespace Values

/-- Added to zeros, totals stay what they are. -/
theorem zeros_add {xs : Values} (proper : xs.Proper) {n : ℕ} (length : xs.length = n) :
    (zeros n).add xs = xs := by
  subst length
  apply List.ext_getElem (by simp)
  intro i hi hx
  have entry := proper xs[i] (List.getElem_mem hx)
  simp [Values.add, zeros, Double.zero_add_of_ne entry]

/-- Spread to the same arm, values that add the same still do. -/
theorem spread_singleton_congr (ids : List ArmId) (arm : ArmId) {x y : Float}
    (same : SameAddend x y) : SameAddends (spread ids [arm] [x]) (spread ids [arm] [y]) := by
  rw [SameAddends, spread, spread, List.forall₂_map_left_iff, List.forall₂_map_right_iff]
  refine List.forall₂_same.mpr fun other _ => ?_
  by_cases here : other = arm
  · simpa [here] using same
  · have differs : (other == arm) = false := by simpa using here
    simpa [List.lookup_cons, differs] using SameAddend.refl 0

end Values

/-- Totals that a new bandit is given are its totals. -/
theorem Stats.grow_fresh {s : Stats} {n : ℕ} {tracks : Bool} (proper : s.Proper)
    (fits : s.Fits n tracks)
    (observed : (Contribution.mk s.counts s.rewards s.squares).observed = s.total) :
    (fresh n tracks).grow ⟨s.counts, s.rewards, s.squares⟩ = s := by
  obtain ⟨counts, rewards, kept, squares⟩ := fits
  have added : addSquares (fresh n tracks).squares s.squares = s.squares := by
    cases given : s.squares with
    | none =>
      rw [given] at kept
      obtain rfl : false = tracks := kept
      rfl
    | some qs =>
      rw [given] at kept
      obtain rfl : true = tracks := kept
      exact congrArg some (Values.zeros_add (proper.squares qs given) (squares qs given))
  rw [grow, added, observed]
  simp only [fresh, Values.zeros_add proper.counts counts, Values.zeros_add proper.rewards rewards,
    UInt64.zero_add]

namespace Bandit

variable {b b' : Bandit} {op : Operation}

/-! ## Rewards that are zero or one -/

/-- A reward that is zero or one adds the same as its square. -/
theorem sameAddend_square {r : Float} (binary : (r == 0) = true ∨ (r == 1) = true) :
    SameAddend (r * r) r := by
  obtain ⟨k, value, square, bound⟩ : ∃ k : ℤ, Double.value r = some (k : ℚ) ∧ k * k = k ∧
      |k * k| ≤ 2 ^ 53 := by
    rcases binary with zero | one
    · exact ⟨0, by simpa using Double.value_of_beq zero Double.value_zero, rfl, by decide⟩
    · exact ⟨1, by simpa using Double.value_of_beq one Double.value_one, rfl, by decide⟩
  have product := Double.value_mul value value bound
  rw [square] at product
  exact Values.sameAddend_of_value product value

/-- Squares of rewards that are zero or one add up to the same as the rewards. -/
theorem squares_eq_rewards_step (wf : b.WellFormed) (bernoulli : b.algorithm = .tunedBernoulli)
    (h : b.stats.squares = some b.stats.rewards) (accepted : b.step op = (b', .ok ()))
    (binary : ∀ arm r, op = .single arm r → (r == 0) = true ∨ (r == 1) = true) :
    b'.stats.squares = some b'.stats.rewards := by
  obtain ⟨-, rfl⟩ := grow_of_accepted wf.toReady accepted
  cases op with
  | batch batch =>
    have spread : (b.spread (.batch batch)).squares = some (b.spread (.batch batch)).rewards := by
      rw [squares_spread, bernoulli]
      rfl
    simp only [Stats.grow, h, spread]
    rfl
  | single arm r =>
    have spread : (b.spread (.single arm r)).squares =
        some (Values.spread b.ids [arm] [r * r]) := by
      simp only [Bandit.spread, Contribution.restrict, bernoulli]
      rfl
    have same := Values.spread_singleton_congr b.ids arm (sameAddend_square (binary arm r rfl))
    simp only [Stats.grow, h, spread]
    exact congrArg some (Values.add_congr wf.proper.rewards same)

theorem squares_eq_rewards (wf : b.WellFormed) (bernoulli : b.algorithm = .tunedBernoulli)
    (h : b.stats.squares = some b.stats.rewards) {ops : List Operation}
    (accepted : ops.foldlM apply b = .ok b')
    (binary : ∀ arm r, .single arm r ∈ ops → (r == 0) = true ∨ (r == 1) = true) :
    b'.stats.squares = some b'.stats.rewards := by
  induction ops generalizing b with
  | nil =>
    obtain rfl : b = b' := Except.ok.inj accepted
    exact h
  | cons op ops ih =>
    obtain ⟨b₁, first, rest⟩ := foldlM_apply_cons accepted
    have kept := wf.step op
    have fixed := (wf.step_fixed op).2
    rw [first] at kept fixed
    have here := squares_eq_rewards_step wf bernoulli h first fun arm r same =>
      binary arm r (by simp [same])
    exact ih kept (fixed.trans bernoulli) here rest fun arm r mem => binary arm r (by simp [mem])

/-- Whatever batches a new bandit is given, it takes the rewards for their squares, and single
rewards that are zero or one are their own squares. -/
theorem squares_eq_rewards_of_history {config : Config} {start : Bandit}
    (created : create config = .ok start) (bernoulli : config.algorithm = .tunedBernoulli)
    {activities : List Activity}
    (binary : ∀ arm r, .single arm r ∈ start.accepted activities →
      (r == 0) = true ∨ (r == 1) = true) :
    (start.history activities).stats.squares = some (start.history activities).stats.rewards := by
  obtain ⟨wf, -, algorithm⟩ := wellFormed_of_create created
  refine squares_eq_rewards wf (algorithm.trans bernoulli) ?_ (wf.foldlM_accepted activities) binary
  rw [stats_of_create created, algorithm, bernoulli]
  rfl

/-! ## Taking over totals -/

/-- A batch of the totals of a bandit. The squares are its own if they are taken from a batch. -/
structure Exports (b : Bandit) (batch : Batch) : Prop where
  counts : batch.counts = b.stats.counts
  rewards : batch.rewards = b.stats.rewards
  squares : b.algorithm = .tuned → batch.squares = b.stats.squares
  length : ∀ qs ∈ batch.squares, qs.length = b.size
  arms : batch.arms = none

/-- Totals from which they can be taken over: the sum of the counts is the number of observations,
and squares that are derived from the rewards are theirs. -/
structure Portable (b : Bandit) : Prop extends b.WellFormed where
  tallied : ∃ n ≤ 2 ^ 53, b.Tallied n
  derived : b.algorithm = .tunedBernoulli → b.stats.squares = some b.stats.rewards

section Import

variable {fresh : Bandit} {batch : Batch} (wf : fresh.WellFormed) (portable : b.Portable)
  (exported : b.Exports batch) (size : fresh.size = b.size)
  (algorithm : fresh.algorithm = b.algorithm)
include portable exported

theorem squaresFor_exported (tracks : b.algorithm.tracksVariance = true) :
    batch.squaresFor b.algorithm = b.stats.squares := by
  cases tuned : b.algorithm with
  | ucb1 => simp [tuned, Algorithm.tracksVariance] at tracks
  | metric => simp [tuned, Algorithm.tracksVariance] at tracks
  | tuned => exact exported.squares tuned
  | tunedBernoulli =>
    rw [portable.derived tuned, Batch.squaresFor, exported.rewards]

include wf size algorithm

theorem clear_of_exported : ∀ j < 7, ∀ e, ¬ Obstacle fresh batch j e := by
  have named : fresh.named batch = fresh.ids := by rw [named, exported.arms, Option.getD_none]
  have counts : batch.counts.length = b.size := by rw [exported.counts, portable.fits.1]
  have rewards : batch.rewards.length = b.size := by rw [exported.rewards, portable.fits.2.1]
  have supplied : fresh.algorithm = .tuned → batch.squares ≠ none := by
    intro tuned missing
    rw [algorithm] at tuned
    have kept := portable.fits.2.2.1
    rw [← exported.squares tuned, missing, tuned] at kept
    cases kept
  exact clear_of_lengths (named ▸ wf.nodup) (by simp [named])
    (by rw [named]; exact counts.trans size.symm) (rewards.trans counts.symm)
    (fun qs given => (exported.length qs given).trans counts.symm) supplied

theorem spread_exported : fresh.spread (.batch batch) =
    ⟨b.stats.counts, b.stats.rewards, b.stats.squares⟩ := by
  have clear := clear_of_exported wf portable exported size algorithm
  have named : fresh.named batch = fresh.ids := by rw [named, exported.arms, Option.getD_none]
  have length := length_of_clear clear (by omega)
  rw [named] at length
  rw [spread, named, Contribution.spread_self wf.nodup length, Contribution.restrict,
    exported.counts, exported.rewards, algorithm]
  cases tracks : b.algorithm.tracksVariance with
  | true => rw [if_pos rfl, squaresFor_exported portable exported tracks]
  | false =>
    have none := portable.fits.2.2.1
    rw [tracks, Option.isSome_eq_false_iff, Option.isNone_iff_eq_none] at none
    simp [none]

/-- Without any totals of its own, a bandit takes over those of another one. -/
theorem step_exported (new : fresh.stats = .fresh fresh.size fresh.algorithm.tracksVariance) :
    fresh.step (.batch batch) = ({ fresh with stats := b.stats }, .ok ()) := by
  obtain ⟨n, bound, tallied⟩ := portable.tallied
  obtain ⟨c, contributed, same⟩ := contribution_of_clear wf.toReady
    (clear_of_exported wf portable exported size algorithm)
  have spread := spread_exported wf portable exported size algorithm
  have observed := observed_of_counting (c := fresh.spread (.batch batch)) (n := n)
    (by rw [spread]; exact tallied.counts) bound
  have room : fresh.stats.total.toNat + (fresh.spread (.batch batch)).observed.toNat < 2 ^ 64 := by
    rw [observed, new, Stats.fresh, UInt64.toNat_zero]
    omega
  have total : (fresh.spread (.batch batch)).observed = b.stats.total := by
    rw [← UInt64.toNat_inj, observed, tallied.total]
  have grown : fresh.stats.grow (fresh.spread (.batch batch)) = b.stats := by
    rw [spread] at total ⊢
    rw [new, size, algorithm, Stats.grow_fresh portable.proper portable.fits total]
  rw [step_of_fits wf.toReady contributed same room, grown]

end Import

/-! ## Histories -/

theorem portable_of_history {config : Config} {start : Bandit} (created : create config = .ok start)
    {activities : List Activity} {n : ℕ}
    (counts : Values.Counting ((start.accepted activities).flatMap Operation.counts) n)
    (bound : n ≤ 2 ^ 53)
    (binary : config.algorithm = .tunedBernoulli → ∀ arm r,
      .single arm r ∈ start.accepted activities → (r == 0) = true ∨ (r == 1) = true) :
    (start.history activities).Portable := by
  obtain ⟨wf, -, algorithm⟩ := wellFormed_of_create created
  obtain ⟨wf', -, algorithm'⟩ := wf.history activities
  refine ⟨wf', ⟨n, bound, tallied_of_history created counts bound⟩, fun bernoulli => ?_⟩
  rw [algorithm', algorithm] at bernoulli
  exact squares_eq_rewards_of_history created bernoulli (binary bernoulli)

/-- There can be as many arms without names as a machine word can count. -/
theorem exists_create_count {n : ℕ} (pos : 0 < n) (bound : n ≤ 2 ^ 64) (a : Algorithm) :
    ∃ fresh, create ⟨.count n, a⟩ = .ok fresh ∧ fresh.size = n := by
  have length := Arms.length_toList_count n
  have nodup : (Arms.count n).toList.Nodup := by
    refine List.nodup_range.map_on fun i hi j hj same => ?_
    rw [List.mem_range] at hi hj
    have words := congrArg (BitVec.toNat ∘ Int64.toBitVec) (ArmId.int.inj same)
    simp only [Function.comp_apply, Int64.toBitVec_ofInt, BitVec.ofInt_natCast,
      BitVec.toNat_ofNat] at words
    omega
  have nonempty : (Arms.count n).toList ≠ [] := List.length_pos_iff.mp (length.symm ▸ pos)
  obtain ⟨fresh, -, created, -⟩ := exists_create (.count n) a nonempty nodup
  exact ⟨fresh, created, (congrArg List.length (wellFormed_of_create created).2.1).trans length⟩

/-- A bandit that takes over the totals of another one with its arms and its algorithm becomes
the same bandit, so everything that is done with it later has the same effect. The scores of a
batch of these totals, which numbers its arms by machine words, are those of the bandit. -/
theorem import_of_exported {config : Config} {start b : Bandit}
    (created : create config = .ok start) (activities : List Activity)
    (reached : start.history activities = b) {n : ℕ}
    (counts : Values.Counting ((start.accepted activities).flatMap Operation.counts) n)
    (bound : n ≤ 2 ^ 53)
    (binary : b.algorithm = .tunedBernoulli → ∀ arm r,
      .single arm r ∈ start.accepted activities → (r == 0) = true ∨ (r == 1) = true)
    {batch : Batch} (exported : b.Exports batch) :
    (∀ config' fresh, create config' = .ok fresh → fresh.ids = b.ids →
      fresh.algorithm = b.algorithm → fresh.step (.batch batch) = (b, .ok ())) ∧
    (b.size ≤ 2 ^ 64 → ∀ ln, b.algorithm.scoresOfBatch ln batch.counts batch.rewards batch.squares =
      .ok (b.scores ln)) := by
  obtain ⟨wf, -, algorithm⟩ := wellFormed_of_create created
  have algorithm' := (wf.history activities).2.2
  rw [reached, algorithm] at algorithm'
  have portable : b.Portable := by
    rw [← reached]
    exact portable_of_history created counts bound (algorithm' ▸ binary)
  constructor
  · intro config' fresh created' ids same
    obtain ⟨wf', -, -⟩ := wellFormed_of_create created'
    have size : fresh.size = b.size := congrArg List.length ids
    have index : fresh.index = b.index := wf'.sound.index_eq portable.sound ids
    rw [step_exported wf' portable exported size same (stats_of_create created'), index, same]
  · intro small ln
    have pos : 0 < b.size := List.length_pos_iff.mpr portable.nonempty
    obtain ⟨fresh, created', size⟩ := exists_create_count pos small b.algorithm
    obtain ⟨wf', -, same⟩ := wellFormed_of_create created'
    have length : batch.counts.length = b.size := by rw [exported.counts, portable.fits.1]
    have whole : Batch.mk batch.counts batch.rewards batch.squares none = batch := by
      rw [← exported.arms]
    have taken := apply_eq_ok_iff.mpr
      (step_exported wf' portable exported size same (stats_of_create created'))
    rw [Algorithm.scoresOfBatch, length, whole, created']
    change (fresh.apply (.batch batch)).bind _ = _
    rw [taken]
    simp only [Except.bind, scores, same]
    rfl

/-- The totals of two arms after a batch and a single observation, taken over by a new bandit. -/
theorem import_of_exported_of_two_arms : ∃ start b : Bandit,
    create ⟨.count 2, .tunedBernoulli⟩ = .ok start ∧ b.Reachable ∧
    b.stats = ⟨3, [2, 1], [1, 1], some [1, 1]⟩ ∧
    start.step (.batch ⟨[2, 1], [1, 1], none, none⟩) = (b, .ok ()) ∧
    Algorithm.scoresOfBatch .tunedBernoulli Float.log [2, 1] [1, 1] none =
      .ok (b.scores Float.log) := by
  obtain ⟨start, hs, created, -⟩ := exists_create (.count 2) .tunedBernoulli (by decide) (by decide)
  obtain ⟨ops, hops⟩ : ∃ ops : List Operation,
      [.batch ⟨[2, 0], [1, 0], none, none⟩, .single (.ofInt 1) 1] = ops := ⟨_, rfl⟩
  obtain ⟨b, reached⟩ : ∃ b, start.history (ops.map .operation) = b := ⟨_, rfl⟩
  have accepted : start.accepted (ops.map .operation) = ops := by
    rw [← hs, ← hops]
    decide +kernel
  have counts : Values.Counting ((start.accepted (ops.map .operation)).flatMap Operation.counts) 3 := by
    rw [accepted, ← hops]
    exact Values.counting_cons_iff.mpr ⟨2, 1, by simp, Values.counting_cons_iff.mpr ⟨0, 1, by simp,
      Values.counting_cons_iff.mpr ⟨1, 0, by simp, Values.counting_nil_iff.mpr rfl, rfl⟩, rfl⟩, rfl⟩
  have binary : b.algorithm = .tunedBernoulli → ∀ arm r,
      .single arm r ∈ start.accepted (ops.map .operation) → (r == 0) = true ∨ (r == 1) = true := by
    intro _ arm r mem
    rw [accepted, ← hops] at mem
    obtain ⟨rfl, rfl⟩ : arm = .ofInt 1 ∧ r = 1 := by simpa using mem
    exact .inr rfl
  have totals : b.stats = ⟨3, [2, 1], [1, 1], some [1, 1]⟩ ∧ b.size = 2 ∧
      b.algorithm = .tunedBernoulli ∧ b.ids = start.ids := by
    rw [← reached, ← hs, ← hops]
    decide +kernel
  obtain ⟨stats, size, algorithm, ids⟩ := totals
  have exported : b.Exports ⟨[2, 1], [1, 1], none, none⟩ := by
    constructor <;> simp [stats, algorithm]
  obtain ⟨taken, scores⟩ := import_of_exported created _ reached counts (by decide) binary exported
  rw [algorithm] at scores
  refine ⟨start, b, created, ⟨_, start, _, created, reached⟩, stats, ?_, ?_⟩
  · refine taken _ start created ids.symm ?_
    rw [algorithm, ← hs]
    rfl
  · exact scores (by rw [size]; decide) _

end Bandit

end UpperConfidence
