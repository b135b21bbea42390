import UpperConfidence.Proofs.Bandit.Accepted
import UpperConfidence.Proofs.Values.Exact

/-!
# The number of observations and the counts

The number of observations and the counts of the arms are kept side by side. They
agree as long as the counts are natural numbers that add up to at most `2 ^ 53`. For
other counts, even if nothing is rounded, each operation loses the part of its sum
behind the point, which is less than one observation.
-/

namespace UpperConfidence

open Double

/-! ## Contributions -/

namespace Values

theorem amount_spread_nonneg {xs : Values} (nonneg : ∀ x ∈ xs, 0 ≤ x) (ids named : List ArmId) :
    0 ≤ (spread ids named xs).amount := by
  refine List.sum_nonneg fun v mem => ?_
  obtain ⟨y, entry, rfl⟩ := List.mem_map.mp mem
  obtain ⟨arm, -, rfl⟩ := List.mem_map.mp entry
  cases found : (named.zip xs).lookup arm with
  | none => exact amount_zero.ge
  | some x =>
    obtain ⟨before, after, eq, -⟩ := List.lookup_eq_some_iff.mp found
    have given : (arm, x) ∈ named.zip xs := eq ▸ by simp
    exact amount_nonneg (nonneg x (List.of_mem_zip given).2)

end Values

/-- No addition rounds when a contribution is counted and added to the counts, and what it counts
has 64 bits. -/
structure Contribution.CountsExactly (c : Contribution) (s : Stats) : Prop where
  sum : c.counts.SumsExactly
  bound : c.counts.amount < 2 ^ 64
  grow : List.Forall₂ AddsExactly s.counts c.counts

theorem Contribution.CountsExactly.observed {c : Contribution} {s : Stats} (h : c.CountsExactly s)
    (nonneg : 0 ≤ c.counts.amount) : c.observed.toNat = ⌊c.counts.amount⌋₊ :=
  toNat_toUInt64_floor (Values.value_laneSum h.sum) nonneg h.bound

namespace Bandit

variable {b b' : Bandit} {op : Operation} {c : Contribution} {k : ℕ}

theorem amount_nonneg_of_contribution (ready : b.Ready) (contributed : b.contribution op = .ok c)
    (nonneg : ∀ x ∈ op.counts, 0 ≤ x) : 0 ≤ c.counts.amount := by
  rw [Values.amount_congr (same_of_contribution ready contributed).counts]
  cases op <;> exact Values.amount_spread_nonneg nonneg _ _

/-! ## Runs -/

/-- No addition rounds when operations are counted one after the other. -/
def CountsExactly (b : Bandit) : List Operation → Prop
  | [] => True
  | op :: ops => (∀ c, b.contribution op = .ok c → c.CountsExactly b.stats) ∧
      (b.step op).1.CountsExactly ops

/-- The number of observations is at most what the counts amount to, and short of it by less than
one for each of `k` operations. -/
structure Lags (b : Bandit) (k : ℕ) : Prop where
  finite : ∀ x ∈ b.stats.counts, x.isFinite = true
  low : b.stats.total.toNat ≤ b.stats.counts.amount
  high : b.stats.counts.amount ≤ b.stats.total.toNat + k
  strict : 0 < k → b.stats.counts.amount < b.stats.total.toNat + k

namespace Lags

theorem of_create {config : Config} (created : create config = .ok b) : b.Lags 0 := by
  have amount : b.stats.counts.amount = 0 := by
    rw [stats_of_create created]
    exact Values.amount_zeros _
  have total : b.stats.total.toNat = 0 := by
    rw [stats_of_create created]
    rfl
  refine ⟨fun x mem => ?_, by simp [amount, total], by simp [amount, total], by simp⟩
  rw [stats_of_create created] at mem
  rw [List.eq_of_mem_replicate mem]
  exact isFinite_of_value value_zero

theorem step (ready : b.Ready) (h : b.Lags k) (accepted : b.step op = (b', .ok ()))
    (nonneg : ∀ x ∈ op.counts, 0 ≤ x)
    (exact : ∀ c, b.contribution op = .ok c → c.CountsExactly b.stats) : b'.Lags (k + 1) := by
  obtain ⟨c, contributed⟩ := exists_contribution accepted
  have counted := exact c contributed
  have positive := amount_nonneg_of_contribution ready contributed nonneg
  rw [step_of_contribution contributed] at accepted
  split at accepted
  · rename_i room
    obtain rfl := (Prod.mk.inj accepted).1
    have amount : (b.stats.grow c).counts.amount = b.stats.counts.amount + c.counts.amount :=
      Values.amount_add counted.grow
    have total : (b.stats.grow c).total.toNat = b.stats.total.toNat + ⌊c.counts.amount⌋₊ := by
      rw [← counted.observed positive]
      exact (UInt64.toNat_add _ _).trans (Nat.mod_eq_of_lt room)
    -- the sum is counted without the part behind the point, so the lag grows by that part
    have floor := Nat.floor_le positive
    have part := Nat.lt_floor_add_one c.counts.amount
    have low := h.low
    have high := h.high
    refine ⟨?_, ?_, ?_, fun _ => ?_⟩
    · exact fun x mem => Values.isFinite_of_mem_add counted.grow mem
    all_goals
      simp only [amount, total]
      push_cast
      linarith
  · simp at accepted

theorem foldlM (wf : b.WellFormed) (h : b.Lags k) {ops : List Operation}
    (accepted : ops.foldlM apply b = .ok b') (nonneg : ∀ op ∈ ops, ∀ x ∈ op.counts, 0 ≤ x)
    (exact : b.CountsExactly ops) : b'.Lags (k + ops.length) := by
  induction ops generalizing b k with
  | nil =>
    obtain rfl : b = b' := Except.ok.inj accepted
    exact h
  | cons op ops ih =>
    obtain ⟨b₁, first, rest⟩ := foldlM_apply_cons accepted
    obtain ⟨here, later⟩ := exact
    have kept := wf.step op
    rw [first] at later kept
    have lags := h.step wf.toReady first (nonneg op List.mem_cons_self) here
    have run := ih kept lags rest (fun op mem => nonneg op (List.mem_cons_of_mem _ mem)) later
    rwa [List.length_cons, Nat.add_comm ops.length 1, ← Nat.add_assoc]

end Lags

theorem CountsExactly.left {ops ops' : List Operation} (h : b.CountsExactly (ops ++ ops')) :
    b.CountsExactly ops := by
  induction ops generalizing b <;> grind [CountsExactly]

/-- In every state of a history, the number of observations is the sum of the counts, if what is
accepted has natural numbers for counts, one for a single observation, that add up to at most
`2 ^ 53`. If it has other counts, but none of the additions rounds, then less than one observation
is lost with each operation. -/
theorem total_agrees_with_counts {config : Config} {start : Bandit}
    (created : create config = .ok start) (activities : List Activity) :
    (∀ n, Values.Counting ((start.accepted activities).flatMap Operation.counts) n → n ≤ 2 ^ 53 →
      ∀ before, before <+: activities →
        (start.history before).stats.counts.Counting (start.history before).stats.total.toNat) ∧
    ((∀ op ∈ start.accepted activities, ∀ x ∈ op.counts, 0 ≤ x) →
      start.CountsExactly (start.accepted activities) →
      ∀ before, before <+: activities → start.accepted before ≠ [] →
        (∀ x ∈ (start.history before).stats.counts, x.isFinite = true) ∧
        (start.history before).stats.total.toNat ≤ (start.history before).stats.counts.amount ∧
        (start.history before).stats.counts.amount <
          (start.history before).stats.total.toNat + (start.accepted before).length) := by
  refine ⟨?_, ?_⟩
  · rintro n counts bound before ⟨rest, rfl⟩
    rw [accepted_append, List.flatMap_append] at counts
    obtain ⟨k, l, first, -, rfl⟩ := Values.counting_append_iff.mp counts
    obtain ⟨tallied, total⟩ := tallied_of_history created first (by omega)
    rwa [total]
  · rintro nonneg exact before ⟨rest, rfl⟩ some
    rw [accepted_append] at nonneg exact
    have wf := (wellFormed_of_create created).1
    have lags := (Lags.of_create created).foldlM wf (wf.foldlM_accepted before)
      (fun op mem => nonneg op (List.mem_append_left _ mem)) exact.left
    rw [Nat.zero_add] at lags
    exact ⟨lags.finite, lags.low, lags.strict (List.length_pos_iff.mpr some)⟩

/-- Whole counts and an unknown arm, and two batches of halves and quarters. -/
theorem total_agrees_with_counts_of_two_arms : ∃ start b b' : Bandit,
    create ⟨.count 2, .ucb1⟩ = .ok start ∧
    start.history ([.batch ⟨[2, 1], [1, 1], none, none⟩, .single (.ofInt 2) 1,
      .single (.ofInt 0) 1].map .operation) = b ∧
    b.stats.counts.Counting b.stats.total.toNat ∧
    start.history ([.batch ⟨[0.5, 0.25], [0, 0], none, none⟩,
      .batch ⟨[0.5], [0], none, some [.ofInt 1]⟩].map .operation) = b' ∧
    b'.stats.total.toNat ≤ b'.stats.counts.amount ∧
    b'.stats.counts.amount < b'.stats.total.toNat + 2 := by
  obtain ⟨start, hs, created, -⟩ := exists_create (.count 2) .ucb1 (by decide) (by decide)
  obtain ⟨whole, hw⟩ : ∃ activities, List.map Activity.operation
      [.batch ⟨[2, 1], [1, 1], none, none⟩, .single (.ofInt 2) 1, .single (.ofInt 0) 1] =
        activities := ⟨_, rfl⟩
  obtain ⟨parts, hp⟩ : ∃ activities, List.map Activity.operation
      [.batch ⟨[0.5, 0.25], [0, 0], none, none⟩, .batch ⟨[0.5], [0], none, some [.ofInt 1]⟩] =
        activities := ⟨_, rfl⟩
  have counts : Values.Counting ((start.accepted whole).flatMap Operation.counts) 4 := by
    have accepted : start.accepted whole =
        [.batch ⟨[2, 1], [1, 1], none, none⟩, .single (.ofInt 0) 1] := by
      rw [← hs, ← hw]
      decide +kernel
    rw [accepted]
    exact ⟨[2, 1, 1], .cons (by simp) (.cons (by simp) (.cons (by simp) .nil)), rfl⟩
  have accepted : start.accepted parts =
      [.batch ⟨[0.5, 0.25], [0, 0], none, none⟩, .batch ⟨[0.5], [0], none, some [.ofInt 1]⟩] := by
    rw [← hs, ← hp]
    decide +kernel
  have nonneg : ∀ op ∈ start.accepted parts, ∀ x ∈ op.counts, 0 ≤ x := by
    rw [accepted]
    decide +kernel
  have exact : start.CountsExactly (start.accepted parts) := by
    have first : start.contribution (.batch ⟨[0.5, 0.25], [0, 0], none, none⟩) =
        .ok ⟨[0.5, 0.25], [0, 0], none⟩ := by
      rw [← hs]
      decide +kernel
    have next : (start.step (.batch ⟨[0.5, 0.25], [0, 0], none, none⟩)).1 =
        { start with stats := ⟨0, [0.5, 0.25], [0, 0], none⟩ } := by
      rw [← hs]
      decide +kernel
    have second : (start.step (.batch ⟨[0.5, 0.25], [0, 0], none, none⟩)).1.contribution
        (.batch ⟨[0.5], [0], none, some [.ofInt 1]⟩) = .ok ⟨[0, 0.5], [0, 0], none⟩ := by
      rw [← hs]
      decide +kernel
    rw [accepted]
    refine ⟨fun c given => ?_, fun c given => ?_, trivial⟩
    · obtain rfl := Except.ok.inj (first.symm.trans given)
      have sum : Values.SumsExactly [0.5, 0.25] :=
        ⟨by constructor <;> decide +kernel, by decide +kernel, by decide +kernel, trivial⟩
      have grow : List.Forall₂ AddsExactly start.stats.counts [0.5, 0.25] := by
        rw [← hs]
        exact .cons (by decide +kernel) (.cons (by decide +kernel) .nil)
      exact ⟨sum, by decide +kernel, grow⟩
    · obtain rfl := Except.ok.inj (second.symm.trans given)
      have sum : Values.SumsExactly [0, 0.5] :=
        ⟨by constructor <;> decide +kernel, by decide +kernel, by decide +kernel, trivial⟩
      have grow : List.Forall₂ AddsExactly [0.5, 0.25] [0, 0.5] :=
        .cons (by decide +kernel) (.cons (by decide +kernel) .nil)
      rw [next]
      exact ⟨sum, by decide +kernel, grow⟩
  have agrees := total_agrees_with_counts created
  have tallied := (agrees whole).1 4 counts (by norm_num) whole (List.prefix_refl _)
  obtain ⟨-, low, high⟩ := (agrees parts).2 nonneg exact parts (List.prefix_refl _) (by
    rw [accepted]
    simp)
  rw [accepted] at high
  refine ⟨start, _, _, created, congrArg _ hw, tallied, congrArg _ hp, low, ?_⟩
  exact_mod_cast high

end Bandit

end UpperConfidence
