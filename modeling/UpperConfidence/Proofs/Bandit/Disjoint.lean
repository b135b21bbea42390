import UpperConfidence.Proofs.Bandit.Accepted
import UpperConfidence.Proofs.Bandit.Column

/-!
# Disjoint arms

Operations that name different arms commute. Each of them adds a zero to the arms of
the other, which no total notices, for none is a negative zero. So no sum is ever
taken in a different order, and one batch over both lists of arms leaves the same
sums. Only the number of observations may differ then: it grows by the whole part
of what a batch counts, and the parts that two batches lose may be one observation
together.
-/

namespace UpperConfidence

/-! ## Vectors -/

namespace Values

variable {totals xs ys : Values} {named named' : List ArmId}

/-- Values for some arms and then for others add the same as all of them at once. -/
theorem add_spread_append (proper : totals.Proper) (nodup : named.Nodup)
    (disjoint : named.Disjoint named') (length : xs.length = named.length) (ids : List ArmId) :
    (totals.add (spread ids named xs)).add (spread ids named' ys) =
      totals.add (spread ids (named ++ named') (xs ++ ys)) := by
  apply List.ext_getElem?
  intro i
  simp only [add, spread, List.getElem?_zipWith, List.getElem?_map, List.zip_append length.symm,
    List.lookup_append]
  cases total : totals[i]? with
  | none => rfl
  | some y =>
    cases ids[i]? with
    | none => rfl
    | some arm =>
      have nonzero : y ≠ Double.negZero := proper y (List.mem_of_getElem? total)
      simp only [Option.map_some, Option.some_inj]
      -- either the second or the first value for the arm is a zero, which the total does not notice
      by_cases mem : arm ∈ named
      · obtain ⟨k, hk, rfl⟩ := List.getElem_of_mem mem
        rw [lookup_zip_getElem nodup hk (length ▸ hk), lookup_zip_of_notMem (disjoint mem)]
        exact Double.add_zero_of_ne (Double.add_ne_negZero nonzero _)
      · rw [lookup_zip_of_notMem mem, Option.none_or, Option.getD_none,
          Double.add_zero_of_ne nonzero]

/-- Values for different arms can be added in either order. -/
theorem add_spread_comm (proper : totals.Proper) (nodup : named.Nodup) (nodup' : named'.Nodup)
    (disjoint : named.Disjoint named') (length : xs.length = named.length)
    (length' : ys.length = named'.length) (ids : List ArmId) :
    (totals.add (spread ids named xs)).add (spread ids named' ys) =
      (totals.add (spread ids named' ys)).add (spread ids named xs) := by
  rw [add_spread_append proper nodup disjoint length,
    add_spread_append proper nodup' disjoint.symm length',
    spread_congr ids (nodup.append nodup' disjoint) (nodup'.append nodup disjoint.symm)]
  intro p
  rw [List.zip_append length.symm, List.zip_append length'.symm, List.mem_append, List.mem_append,
    or_comm]

end Values

/-! ## Operations -/

namespace Contribution

/-- The values of two contributions one after the other. -/
def append (c d : Contribution) : Contribution where
  counts := c.counts ++ d.counts
  rewards := c.rewards ++ d.rewards
  squares := Option.map₂ (· ++ ·) c.squares d.squares

theorem column_append (c d : Contribution) (col : Column) :
    (c.append d).column col = Option.map₂ (· ++ ·) (c.column col) (d.column col) := by
  cases col <;> rfl

end Contribution

/-- The batch of two batches for different arms. -/
def Batch.append (batch other : Batch) : Batch where
  counts := batch.counts ++ other.counts
  rewards := batch.rewards ++ other.rewards
  squares := Option.map₂ (· ++ ·) batch.squares other.squares
  arms := Option.map₂ (· ++ ·) batch.arms other.arms

theorem Batch.values_append (batch other : Batch) (a : Algorithm) :
    (Operation.batch (batch.append other)).values a =
      ((Operation.batch batch).values a).append ((Operation.batch other).values a) := by
  cases a <;> rfl

namespace Bandit

variable {b : Bandit} {op x y : Operation} {c d : Contribution} {col : Column}

namespace Placeable

variable (h : b.Placeable op)
include h

theorem exists_values (kept : b.algorithm.keeps col = true) :
    ∃ vs, (op.values b.algorithm).column col = some vs ∧ vs.length = (b.names op).length := by
  cases col with
  | counts => exact ⟨_, rfl, h.length.counts⟩
  | rewards => exact ⟨_, rfl, h.length.rewards⟩
  | squares =>
    obtain ⟨qs, given⟩ := Option.isSome_iff_exists.mp (h.supplied kept)
    exact ⟨qs, given, h.length.squares qs given⟩

/-- Natural numbers are counted without loss. -/
theorem observed (ready : b.Ready) {n : ℕ} (counts : op.counts.Counting n) (bound : n ≤ 2 ^ 53) :
    (b.spread op).observed.toNat = n :=
  observed_of_counting (counting_spread ready h counts) bound

end Placeable

theorem column_spread_of_values (kept : b.algorithm.keeps col = true) {vs : Values}
    (given : (op.values b.algorithm).column col = some vs) :
    (b.spread op).column col = some (vs.spread b.ids (b.names op)) := by
  rw [spread_eq, Contribution.column_restrict _ kept, Contribution.column_spread, given]
  rfl

/-! ## Two operations -/

section Disjoint

variable (wf : b.WellFormed) (hx : b.Placeable x) (hy : b.Placeable y)
  (disjoint : (b.names x).Disjoint (b.names y))
include wf hx hy disjoint

theorem grow_comm : (b.stats.grow (b.spread x)).grow (b.spread y) =
    (b.stats.grow (b.spread y)).grow (b.spread x) := by
  apply Stats.ext_columns
  · exact (UInt64.add_assoc _ _ _).trans ((congrArg _ (UInt64.add_comm _ _)).trans
      (UInt64.add_assoc _ _ _).symm)
  · intro col
    simp only [Stats.column_grow]
    cases total : b.stats.column col with
    | none => rfl
    | some kept =>
      have keeps := keeps_of_mem wf total
      obtain ⟨vs, given, length⟩ := hx.exists_values keeps
      obtain ⟨ws, given', length'⟩ := hy.exists_values keeps
      rw [column_spread_of_values keeps given, column_spread_of_values keeps given']
      exact congrArg some (Values.add_spread_comm (proper_of_mem_column wf total) hx.nodup hy.nodup
        disjoint length length' b.ids)

end Disjoint

theorem contribution_with_stats (b : Bandit) (stats : Stats) (op : Operation) :
    ({ b with stats } : Bandit).contribution op = b.contribution op := by
  cases op <;> rfl

theorem spread_with_stats (b : Bandit) (stats : Stats) (op : Operation) :
    ({ b with stats } : Bandit).spread op = b.spread op := by
  cases op <;> rfl

theorem foldlM_one {b' : Bandit} (accepted : b.step op = (b', .ok ())) :
    [op].foldlM apply b = .ok b' := by
  rw [List.foldlM_cons, apply_eq_ok_iff.mpr accepted]
  rfl

/-- Two operations that fit succeed one after the other if there is room for both. -/
theorem foldlM_pair (ready : b.Ready) (hx : b.contribution x = .ok c)
    (hy : b.contribution y = .ok d)
    (room : b.stats.total.toNat + c.observed.toNat + d.observed.toNat < 2 ^ 64) :
    [x, y].foldlM apply b =
      .ok { b with stats := (b.stats.grow (b.spread x)).grow (b.spread y) } := by
  have sameX := same_of_contribution ready hx
  have sameY := same_of_contribution ready hy
  rw [Contribution.observed_congr sameX, Contribution.observed_congr sameY] at room
  have first := step_of_fits ready hx sameX (by omega)
  have total := total_of_accepted ready first
  have ready' : Ready { b with stats := b.stats.grow (b.spread x) } :=
    ⟨ready.sound, ready.proper.grow _⟩
  have second := step_of_fits ready' ((contribution_with_stats b _ y).trans hy)
    (by rwa [spread_with_stats b _ y]) (by rw [total, spread_with_stats b _ y]; omega)
  rw [spread_with_stats b _ y] at second
  exact foldlM_apply_append (foldlM_one first) (foldlM_one second)

/-! ## One batch instead of two -/

/-- Batches that fit and list different arms. -/
structure Mergeable (b : Bandit) (batch other : Batch) : Prop where
  wf : b.WellFormed
  fits : ∃ c, b.contribution (.batch batch) = .ok c
  fits' : ∃ d, b.contribution (.batch other) = .ok d
  arms : ∃ ids, batch.arms = some ids
  arms' : ∃ ids, other.arms = some ids
  disjoint : (b.named batch).Disjoint (b.named other)

namespace Mergeable

variable {batch other : Batch} (h : b.Mergeable batch other)
include h

theorem placeable : b.Placeable (.batch batch) ∧ b.Placeable (.batch other) := by
  obtain ⟨c, fits⟩ := h.fits
  obtain ⟨d, fits'⟩ := h.fits'
  exact ⟨placeable_of_contribution h.wf.toReady fits, placeable_of_contribution h.wf.toReady fits'⟩

theorem named_append : b.named (batch.append other) = b.named batch ++ b.named other := by
  obtain ⟨ids, arms⟩ := h.arms
  obtain ⟨ids', arms'⟩ := h.arms'
  simp [named, Batch.append, arms, arms']

/-- Nothing but an overflow is in the way of both batches in one. -/
theorem clear_append : ∀ j < 7, ∀ e, ¬ Obstacle b (batch.append other) j e := by
  obtain ⟨c, fits⟩ := h.fits
  obtain ⟨d, fits'⟩ := h.fits'
  obtain ⟨place, place'⟩ := h.placeable
  have clear := clear_of_contribution h.wf.toReady fits
  have clear' := clear_of_contribution h.wf.toReady fits'
  refine clear_of_lengths ?_ ?_ ?_ ?_ ?_ ?_
  · rw [h.named_append]
    exact place.nodup.append place'.nodup h.disjoint
  · rw [h.named_append]
    exact List.append_subset.mpr ⟨place.known, place'.known⟩
  · rw [h.named_append, List.length_append]
    exact List.length_append.trans (congrArg₂ _ place.length.counts place'.length.counts)
  · simp [Batch.append, rewards_of_clear clear (by omega), rewards_of_clear clear' (by omega)]
  · intro qs given
    obtain ⟨ps, ps', taken, taken', rfl⟩ := Option.mem_map₂_iff.mp given
    simp [Batch.append, squares_of_clear clear (by omega) taken,
      squares_of_clear clear' (by omega) taken']
  · intro tuned
    obtain ⟨ps, given⟩ := supplied_of_clear clear (by omega) tuned
    obtain ⟨ps', given'⟩ := supplied_of_clear clear' (by omega) tuned
    simp [Batch.append, given, given']

/-- One batch leaves the same sums as two. -/
theorem column_grow_append (col : Column) :
    (b.stats.grow (b.spread (.batch (batch.append other)))).column col =
      ((b.stats.grow (b.spread (.batch batch))).grow (b.spread (.batch other))).column col := by
  obtain ⟨place, place'⟩ := h.placeable
  simp only [Stats.column_grow]
  cases total : b.stats.column col with
  | none => rfl
  | some kept =>
    have keeps := keeps_of_mem h.wf total
    obtain ⟨vs, given, length⟩ := place.exists_values keeps
    obtain ⟨ws, given', -⟩ := place'.exists_values keeps
    have merged : ((Operation.batch (batch.append other)).values b.algorithm).column col =
        some (vs ++ ws) := by
      rw [Batch.values_append, Contribution.column_append, given, given']
      rfl
    rw [column_spread_of_values keeps given, column_spread_of_values keeps given',
      column_spread_of_values keeps merged, names, h.named_append]
    exact congrArg some (Values.add_spread_append (proper_of_mem_column h.wf total) place.nodup
      h.disjoint length b.ids).symm

/-- Nothing is lost of natural numbers, so one batch counts as much as two. -/
theorem observed_append {n : ℕ} (counts : Values.Counting (batch.counts ++ other.counts) n)
    (bound : n ≤ 2 ^ 53) : (b.spread (.batch (batch.append other))).observed =
      (b.spread (.batch batch)).observed + (b.spread (.batch other)).observed := by
  have ready := h.wf.toReady
  obtain ⟨place, place'⟩ := h.placeable
  obtain ⟨e, fits, -⟩ := contribution_of_clear ready h.clear_append
  obtain ⟨k, l, first, second, rfl⟩ := Values.counting_append_iff.mp counts
  have observed := (placeable_of_contribution ready fits).observed ready counts bound
  apply UInt64.toNat_inj.mp
  rw [observed, UInt64.toNat_add, place.observed ready first (by omega),
    place'.observed ready second (by omega), Nat.mod_eq_of_lt (by omega)]

/-- One batch does all that two batches do if they count natural numbers. -/
theorem step_append {n : ℕ} (counts : Values.Counting (batch.counts ++ other.counts) n)
    (bound : n ≤ 2 ^ 53)
    (room : b.stats.total.toNat + (b.spread (.batch batch)).observed.toNat +
      (b.spread (.batch other)).observed.toNat < 2 ^ 64) :
    b.step (.batch (batch.append other)) =
      ({ b with stats := (b.stats.grow (b.spread (.batch batch))).grow (b.spread (.batch other)) },
        .ok ()) := by
  have ready := h.wf.toReady
  obtain ⟨e, fits, same⟩ := contribution_of_clear ready h.clear_append
  have counted := h.observed_append counts bound
  have total := (congrArg (b.stats.total + ·) counted).trans (UInt64.add_assoc _ _ _).symm
  rw [step_of_fits ready fits same (by rw [counted, UInt64.toNat_add]; omega),
    Stats.ext_columns total h.column_grow_append]

end Mergeable

/-- Operations that name different arms commute. One batch instead of two leaves the same sums
unless there is no room for what it counts, and it does all that the two do if they count natural
numbers. -/
theorem disjoint_operations (reachable : b.Reachable) (hx : b.contribution x = .ok c)
    (hy : b.contribution y = .ok d) (disjoint : (b.names x).Disjoint (b.names y))
    (room : b.stats.total.toNat + c.observed.toNat + d.observed.toNat < 2 ^ 64) :
    ∃ b', [x, y].foldlM apply b = .ok b' ∧ [y, x].foldlM apply b = .ok b' ∧
      ∀ batch other : Batch, x = .batch batch → y = .batch other →
        ∀ ids ids', batch.arms = some ids → other.arms = some ids' →
          ∃ e, b.contribution (.batch (batch.append other)) = .ok e ∧
            (b.stats.total.toNat + e.observed.toNat < 2 ^ 64 →
              ∃ b'', b.step (.batch (batch.append other)) = (b'', .ok ()) ∧
                b''.stats.counts = b'.stats.counts ∧ b''.stats.rewards = b'.stats.rewards ∧
                b''.stats.squares = b'.stats.squares) ∧
            (2 ^ 64 ≤ b.stats.total.toNat + e.observed.toNat →
              b.step (.batch (batch.append other)) = (b, .error (.fault .countOverflow))) ∧
            ∀ n, Values.Counting (batch.counts ++ other.counts) n → n ≤ 2 ^ 53 →
              b.step (.batch (batch.append other)) = (b', .ok ()) := by
  have wf := reachable.wellFormed
  have ready := wf.toReady
  refine ⟨_, foldlM_pair ready hx hy room, ?_, ?_⟩
  · rw [grow_comm wf (placeable_of_contribution ready hx) (placeable_of_contribution ready hy)
      disjoint]
    exact foldlM_pair ready hy hx (by omega)
  · rintro batch other rfl rfl ids ids' arms arms'
    have merge : b.Mergeable batch other :=
      ⟨wf, ⟨c, hx⟩, ⟨d, hy⟩, ⟨ids, arms⟩, ⟨ids', arms'⟩, disjoint⟩
    have columns := merge.column_grow_append
    obtain ⟨e, fits, same⟩ := contribution_of_clear ready merge.clear_append
    rw [Contribution.observed_congr (same_of_contribution ready hx),
      Contribution.observed_congr (same_of_contribution ready hy)] at room
    refine ⟨e, fits, ?_⟩
    rw [Contribution.observed_congr same]
    refine ⟨fun free => ?_, step_of_overflow fits same,
      fun n counts bound => merge.step_append counts bound room⟩
    exact ⟨_, step_of_fits ready fits same free, Option.some_inj.mp (columns .counts),
      Option.some_inj.mp (columns .rewards), columns .squares⟩

/-- Two batches for one arm each, with squares, for three arms. -/
theorem disjoint_operations_of_three_arms : ∃ b b' : Bandit, b.Reachable ∧
    [.batch ⟨[2], [1], some [1], some [.ofInt 1]⟩,
      .batch ⟨[1], [0], some [0], some [.ofInt 2]⟩].foldlM apply b = .ok b' ∧
    [.batch ⟨[1], [0], some [0], some [.ofInt 2]⟩,
      .batch ⟨[2], [1], some [1], some [.ofInt 1]⟩].foldlM apply b = .ok b' ∧
    b.step (.batch ⟨[2, 1], [1, 0], some [1, 0], some [.ofInt 1, .ofInt 2]⟩) = (b', .ok ()) := by
  obtain ⟨b, hb, created, reachable⟩ := exists_create (.count 3) .tuned (by decide) (by decide)
  have hx : b.contribution (.batch ⟨[2], [1], some [1], some [.ofInt 1]⟩) =
      .ok ⟨[0, 2, 0], [0, 1, 0], some [0, 1, 0]⟩ := by
    rw [← hb]
    decide +kernel
  have hy : b.contribution (.batch ⟨[1], [0], some [0], some [.ofInt 2]⟩) =
      .ok ⟨[0, 0, 1], [0, 0, 0], some [0, 0, 0]⟩ := by
    rw [← hb]
    decide +kernel
  have room : b.stats.total.toNat +
      (Contribution.mk [0, 2, 0] [0, 1, 0] (some [0, 1, 0])).observed.toNat +
      (Contribution.mk [0, 0, 1] [0, 0, 0] (some [0, 0, 0])).observed.toNat < 2 ^ 64 := by
    rw [← hb]
    decide +kernel
  have disjoint : [ArmId.ofInt 1].Disjoint [.ofInt 2] :=
    List.singleton_disjoint.mpr (by decide)
  obtain ⟨b', first, second, merged⟩ := disjoint_operations reachable hx hy disjoint room
  obtain ⟨-, -, -, -, same⟩ := merged _ _ rfl rfl _ _ rfl rfl
  have counts : Values.Counting [2, 1] 3 := ⟨[2, 1], .cons (by simp) (.cons (by simp) .nil), rfl⟩
  exact ⟨b, b', reachable, first, second, same 3 counts (by norm_num)⟩

/-- Half an observation of each of two arms is none for two batches and one for one batch, and there
may be no room for that one. -/
theorem append_overflow_of_halves : ∃ (b b' : Bandit) (batch other : Batch) (c d : Contribution),
    b.Reachable ∧ b.contribution (.batch batch) = .ok c ∧ b.contribution (.batch other) = .ok d ∧
    batch.arms = some [.ofInt 1] ∧ other.arms = some [.ofInt 2] ∧
    b.stats.total.toNat + c.observed.toNat + d.observed.toNat < 2 ^ 64 ∧
    [.batch batch, .batch other].foldlM apply b = .ok b' ∧
    b.step (.batch (batch.append other)) = (b, .error (.fault .countOverflow)) ∧
    b.stats.counts ≠ b'.stats.counts := by
  obtain ⟨start, hs, created, -⟩ := exists_create (.count 3) .ucb1 (by decide) (by decide)
  obtain ⟨b, reached⟩ : ∃ b, start.history
    [.operation (.batch ⟨[18446744073709551616, 0, 0], [0, 0, 0], none, none⟩)] = b := ⟨_, rfl⟩
  have reachable : b.Reachable := ⟨_, _, _, created, reached⟩
  refine ⟨b, { b with stats := { b.stats with counts := [18446744073709551616, 0.5, 0.5] } },
    ⟨[0.5], [0], none, some [.ofInt 1]⟩, ⟨[0.5], [0], none, some [.ofInt 2]⟩,
    ⟨[0, 0.5, 0], [0, 0, 0], none⟩, ⟨[0, 0, 0.5], [0, 0, 0], none⟩, reachable, ?_⟩
  rw [← reached, ← hs]
  decide +kernel

end Bandit

end UpperConfidence
