import UpperConfidence.Proofs.Bandit.Invariant

/-!
# The law of ingestion

For a bandit that has come about in any way, the outcome of each operation and
its effect on the totals. An operation that fails leaves the bandit as it was.
A batch that is accepted adds to each named arm its own values and nothing to
the others, so what it does depends on the values and not on the order in which
the arms are named.
-/

namespace UpperConfidence

/-! ## Growth of one arm -/

namespace Values

/-- The entry at position `i` has grown by `x`. -/
def GrownAt (old new : Values) (i : Nat) (x : Float) : Prop :=
  ∃ y, old[i]? = some y ∧ new[i]? = some (y + x)

variable {totals xs : Values} {ids named : List ArmId} {i : Nat} {arm : ArmId}

theorem getElem?_add_spread (named : List ArmId) (xs : Values)
    (length : totals.length = ids.length) (place : ids[i]? = some arm) :
    ∃ y ∈ totals, totals[i]? = some y ∧
      (totals.add (spread ids named xs))[i]? = some (y + ((named.zip xs).lookup arm).getD 0) := by
  obtain ⟨hi, rfl⟩ := List.getElem?_eq_some_iff.mp place
  have ht : i < totals.length := by omega
  refine ⟨totals[i], List.getElem_mem ht, List.getElem?_eq_getElem ht, ?_⟩
  simp [Values.add, List.getElem?_zipWith, List.getElem?_eq_getElem ht,
    List.getElem?_eq_getElem hi, spread]

/-- An arm that is named gets its own value. -/
theorem grownAt_of_named (length : totals.length = ids.length) (nodup : named.Nodup)
    (place : ids[i]? = some arm) {k : Nat} (hk : named[k]? = some arm) {x : Float}
    (hx : xs[k]? = some x) : totals.GrownAt (totals.add (spread ids named xs)) i x := by
  obtain ⟨y, -, before, after⟩ := getElem?_add_spread named xs length place
  obtain ⟨kn, rfl⟩ := List.getElem?_eq_some_iff.mp hk
  obtain ⟨kx, rfl⟩ := List.getElem?_eq_some_iff.mp hx
  rw [lookup_zip_getElem nodup kn kx] at after
  exact ⟨y, before, after⟩

/-- An arm that is not named keeps its total, which adding a zero does not change
because it is not a negative zero. -/
theorem getElem?_of_unnamed (length : totals.length = ids.length) (proper : totals.Proper)
    (place : ids[i]? = some arm) (unnamed : arm ∉ named) :
    (totals.add (spread ids named xs))[i]? = totals[i]? := by
  obtain ⟨y, mem, before, after⟩ := getElem?_add_spread named xs length place
  rw [lookup_zip_of_notMem unnamed, Option.getD_none, Double.add_zero_of_ne (proper y mem)] at after
  rw [before, after]

/-- A spread vector depends on which value goes to which arm, and not on the order. -/
theorem spread_congr (ids : List ArmId) {named' : List ArmId} {xs' : Values} (nodup : named.Nodup)
    (nodup' : named'.Nodup) (same : ∀ p, p ∈ named.zip xs ↔ p ∈ named'.zip xs') :
    spread ids named xs = spread ids named' xs' := by
  have lookups (arm : ArmId) : (named.zip xs).lookup arm = (named'.zip xs').lookup arm := by
    ext x
    rw [lookup_zip_eq_some_iff nodup, lookup_zip_eq_some_iff nodup', same]
  simp only [spread, lookups]

end Values

/-- The arm at position `i` has been given a count, a reward and a square, which
goes into the totals where squares are tracked. -/
structure Stats.Gains (old new : Stats) (i : Nat) (n r q : Float) : Prop where
  counts : old.counts.GrownAt new.counts i n
  rewards : old.rewards.GrownAt new.rewards i r
  squares : ∀ kept ∈ old.squares, ∃ kept' ∈ new.squares, Values.GrownAt kept kept' i q

/-- Nothing has changed for the arm at position `i`. -/
structure Stats.SameAt (old new : Stats) (i : Nat) : Prop where
  counts : new.counts[i]? = old.counts[i]?
  rewards : new.rewards[i]? = old.rewards[i]?
  squares : ∀ kept ∈ old.squares, ∃ kept' ∈ new.squares, kept'[i]? = kept[i]?

namespace Bandit

/-- The first obstacle decides how an operation fails, and without one it succeeds. -/
theorem step_outcome {b : Bandit} (reachable : b.Reachable) :
    (∀ batch k e, Obstacle b batch k e → (∀ j < k, ∀ e', ¬ Obstacle b batch j e') →
      b.step (.batch batch) = (b, .error e)) ∧
    (∀ batch, (∀ k e, ¬ Obstacle b batch k e) → ∃ b', b.step (.batch batch) = (b', .ok ())) ∧
    (∀ arm reward, arm ∉ b.ids →
      b.step (.single arm reward) = (b, .error (.rejected (.unknownArm arm b.ids)))) ∧
    (∀ arm reward, arm ∈ b.ids → 2 ^ 64 ≤ b.stats.total.toNat + 1 →
      b.step (.single arm reward) = (b, .error (.fault .countOverflow))) ∧
    (∀ arm reward, arm ∈ b.ids → b.stats.total.toNat + 1 < 2 ^ 64 →
      ∃ b', b.step (.single arm reward) = (b', .ok ())) := by
  have ready := reachable.wellFormed.toReady
  refine ⟨?_, ?_, ?_, ?_, ?_⟩
  · intro batch k e obstacle clear
    cases e with
    | rejected cause => exact step_of_rejected (contribution_of_obstacle ready obstacle clear)
    | fault cause =>
      obtain ⟨rfl, rfl, full⟩ := obstacle_fault obstacle
      obtain ⟨c, contributed, same⟩ := contribution_of_clear ready clear
      exact step_of_overflow contributed same full
  · intro batch clear
    obtain ⟨c, contributed, same⟩ := contribution_of_clear ready fun j _ e => clear j e
    have room : b.stats.total.toNat + (b.spread (.batch batch)).observed.toNat < 2 ^ 64 := by
      by_contra h
      exact clear 7 _ (.overflow (not_lt.mp h))
    exact ⟨_, step_of_fits ready contributed same room⟩
  · intro arm reward unknown
    exact step_of_rejected (contribution_single_of_unknown ready unknown)
  · intro arm reward known full
    obtain ⟨c, contributed, same⟩ := contribution_single ready known reward
    refine step_of_overflow contributed same ?_
    rw [observed_single ready known]
    exact full
  · intro arm reward known room
    obtain ⟨c, contributed, same⟩ := contribution_single ready known reward
    refine ⟨_, step_of_fits ready contributed same ?_⟩
    rw [observed_single ready known]
    exact room

/-- Batches and single observations of two arms. Those that have a repeated or an unknown arm are
rejected, others are accepted, and none is once the number of observations is as great as it can
be. -/
theorem step_outcome_of_two_arms : ∃ b full : Bandit, b.Reachable ∧ full.Reachable ∧
    full.stats = ⟨18446744073709551615, [18446744073709551616, 0], [0, 0], none⟩ ∧
    b.step (.batch ⟨[1, 1, 1], [1, 1, 1], none, some [.ofInt 1, .ofInt 7, .ofInt 1]⟩) =
      (b, .error (.rejected (.duplicateArm (.ofInt 1)))) ∧
    (∃ b', b.step (.batch ⟨[2], [1], none, some [.ofInt 1]⟩) = (b', .ok ())) ∧
    full.step (.batch ⟨[2], [1], none, some [.ofInt 1]⟩) =
      (full, .error (.fault .countOverflow)) ∧
    b.step (.single (.ofInt 7) 1) = (b, .error (.rejected (.unknownArm (.ofInt 7) b.ids))) ∧
    (∃ b', b.step (.single (.ofInt 1) 1) = (b', .ok ())) ∧
    full.step (.single (.ofInt 1) 1) = (full, .error (.fault .countOverflow)) := by
  obtain ⟨b, hb, created, reachable⟩ := exists_create (.count 2) .ucb1 (by decide) (by decide)
  obtain ⟨full, reached⟩ : ∃ full, b.history
    [.operation (.batch ⟨[18446744073709551616, 0], [0, 0], none, none⟩)] = full := ⟨_, rfl⟩
  have reachable' : full.Reachable := ⟨_, b, _, created, reached⟩
  have filled : full = ⟨b.index, .ucb1,
      ⟨18446744073709551615, [18446744073709551616, 0], [0, 0], none⟩⟩ := by
    rw [← reached, ← hb]
    decide +kernel
  have known : ArmId.ofInt 1 ∈ b.ids ∧ ArmId.ofInt 1 ∈ full.ids ∧ ArmId.ofInt 7 ∉ b.ids := by
    rw [filled, ← hb]
    decide
  obtain ⟨failing, accepting, unknown, overflowing, taking⟩ := step_outcome reachable
  obtain ⟨failing', -, -, overflowing', -⟩ := step_outcome reachable'
  have clear : ∀ j < 7, ∀ e, ¬ Obstacle b ⟨[2], [1], none, some [.ofInt 1]⟩ j e :=
    clear_of_contribution reachable.wellFormed.toReady (by rw [← hb]; rfl)
  have clear' : ∀ j < 7, ∀ e, ¬ Obstacle full ⟨[2], [1], none, some [.ofInt 1]⟩ j e :=
    clear_of_contribution reachable'.wellFormed.toReady (by rw [filled, ← hb]; rfl)
  have room : b.stats.total.toNat +
      (b.spread (.batch ⟨[2], [1], none, some [.ofInt 1]⟩)).observed.toNat < 2 ^ 64 := by
    rw [← hb]
    decide +kernel
  refine ⟨b, full, reachable, reachable', by rw [filled], failing _ 4 _ ?_ ?_,
    accepting _ fun k e obstacle => ?_, failing' _ 7 _ (.overflow ?_) clear',
    unknown _ _ known.2.2, taking _ _ known.1 ?_, overflowing' _ _ known.2.1 ?_⟩
  · have given : some [ArmId.ofInt 1, .ofInt 7, .ofInt 1] =
        some ([.ofInt 1, .ofInt 7] ++ .ofInt 1 :: []) := rfl
    refine .repeated given ?_ (by decide) (by decide)
    rw [← hb]
    decide
  · intro j hj e obstacle
    cases obstacle with
    | missingSquares tuned =>
      rw [← hb] at tuned
      cases tuned
    | rewards h => exact h rfl
    | squares given => cases given
    | repeated => omega
    | unknown => omega
    | counts => omega
    | overflow => omega
  · rcases Nat.lt_or_ge k 7 with before | last
    · exact clear k before e obstacle
    · cases obstacle with
      | overflow full => exact absurd full (not_le.mpr room)
      | _ => omega
  · rw [filled, ← hb]
    decide +kernel
  · rw [← hb]
    decide
  · rw [filled, ← hb]
    decide

/-! ## Accepted batches -/

/-- Two batches that give the same values to the same arms, in whatever order
they name them. Squares count where the algorithm takes them from the batch. -/
structure SameAssignment (b : Bandit) (batch other : Batch) : Prop where
  counts : ∀ p, p ∈ (b.named batch).zip batch.counts ↔ p ∈ (b.named other).zip other.counts
  rewards : ∀ p, p ∈ (b.named batch).zip batch.rewards ↔ p ∈ (b.named other).zip other.rewards
  squares : b.algorithm = .tuned → ∀ qs ∈ batch.squares, ∀ qs' ∈ other.squares,
    ∀ p, p ∈ (b.named batch).zip qs ↔ p ∈ (b.named other).zip qs'

/-- The values in row `k` of a batch, with the square that the algorithm takes. -/
structure Row (batch : Batch) (a : Algorithm) (k : Nat) (n r q : Float) : Prop where
  counts : batch.counts[k]? = some n
  rewards : batch.rewards[k]? = some r
  supplied : a = .tuned → ∃ qs : Values, batch.squares = some qs ∧ qs[k]? = some q
  derived : a = .tunedBernoulli → q = r

section Accepted

variable {b b' : Bandit} {batch : Batch}

theorem clear_of_accepted (ready : b.Ready) (accepted : b.step (.batch batch) = (b', .ok ())) :
    ∀ j < 7, ∀ e, ¬ Obstacle b batch j e := by
  obtain ⟨c, contributed⟩ := exists_contribution accepted
  exact clear_of_contribution ready contributed

theorem grow_of_accepted {op : Operation} (ready : b.Ready)
    (accepted : b.step op = (b', .ok ())) :
    b.stats.total.toNat + (b.spread op).observed.toNat < 2 ^ 64 ∧
      b' = { b with stats := b.stats.grow (b.spread op) } := by
  rcases step_cases ready op with ⟨e, eq⟩ | ⟨room, eq⟩
  · simp [eq] at accepted
  · rw [eq] at accepted
    exact ⟨room, (Prod.mk.inj accepted).1.symm⟩

theorem total_of_accepted {op : Operation} (ready : b.Ready)
    (accepted : b.step op = (b', .ok ())) :
    b'.stats.total.toNat = b.stats.total.toNat + (b.spread op).observed.toNat := by
  obtain ⟨room, rfl⟩ := grow_of_accepted ready accepted
  exact (UInt64.toNat_add _ _).trans (Nat.mod_eq_of_lt room)

theorem squares_spread (b : Bandit) (batch : Batch) :
    (b.spread (.batch batch)).squares = if b.algorithm.tracksVariance then
      (batch.squaresFor b.algorithm).map (Values.spread b.ids (b.named batch)) else none := rfl

theorem squares_grow {kept : Values} (given : b.stats.squares = some kept) (c : Contribution) :
    (b.stats.grow c).squares = some (c.squares.elim kept kept.add) := by
  rw [Stats.grow, given]
  cases c.squares <;> rfl

/-- Batches with the same assignment are the same when they are spread. -/
theorem spread_of_sameAssignment (ready : b.Ready) {other : Batch}
    (clear : ∀ j < 7, ∀ e, ¬ Obstacle b batch j e) (clear' : ∀ j < 7, ∀ e, ¬ Obstacle b other j e)
    (same : SameAssignment b batch other) :
    b.spread (.batch batch) = b.spread (.batch other) := by
  have nodup := nodup_of_clear ready clear (by omega)
  have nodup' := nodup_of_clear ready clear' (by omega)
  have counts := Values.spread_congr b.ids nodup nodup' same.counts
  have rewards := Values.spread_congr b.ids nodup nodup' same.rewards
  have squares : (b.spread (.batch batch)).squares = (b.spread (.batch other)).squares := by
    rw [squares_spread, squares_spread]
    cases tuned : b.algorithm with
    | ucb1 => rfl
    | metric => rfl
    | tunedBernoulli => exact congrArg some rewards
    | tuned =>
      obtain ⟨qs, given⟩ := supplied_of_clear clear (by omega) tuned
      obtain ⟨qs', given'⟩ := supplied_of_clear clear' (by omega) tuned
      simp only [Batch.squaresFor, given, given', Option.map_some]
      rw [Values.spread_congr b.ids nodup nodup' (same.squares tuned qs given qs' given')]
  simp only [spread, Contribution.spread, Contribution.restrict] at squares ⊢
  rw [counts, rewards, squares]

/-- The square of row `k` that the algorithm takes, and where it comes from. -/
theorem exists_square_of_clear (clear : ∀ j < 7, ∀ e, ¬ Obstacle b batch j e) {k : Nat}
    (hk : k < (b.named batch).length) {r : Float} (hr : batch.rewards[k]? = some r) :
    ∃ q, (b.algorithm = .tuned → ∃ qs : Values, batch.squares = some qs ∧ qs[k]? = some q) ∧
      (b.algorithm = .tunedBernoulli → q = r) ∧
      (b.algorithm.tracksVariance = true → ∃ xs : Values, xs[k]? = some q ∧
        (b.spread (.batch batch)).squares = some (xs.spread b.ids (b.named batch))) := by
  have taken := squares_spread b batch
  cases algorithm : b.algorithm with
  | ucb1 => exact ⟨r, by simp, by simp, by simp [Algorithm.tracksVariance]⟩
  | metric => exact ⟨r, by simp, by simp, by simp [Algorithm.tracksVariance]⟩
  | tunedBernoulli =>
    rw [algorithm] at taken
    exact ⟨r, by simp, fun _ => rfl, fun _ => ⟨batch.rewards, hr, taken⟩⟩
  | tuned =>
    obtain ⟨qs, given⟩ := supplied_of_clear clear (by omega) algorithm
    have squares := (length_of_clear clear (by omega)).squares qs (by rw [algorithm]; exact given)
    have hq : qs[k]? = some qs[k] := List.getElem?_eq_getElem (squares ▸ hk)
    rw [algorithm] at taken
    simp only [Batch.squaresFor, given, Option.map_some] at taken
    exact ⟨qs[k], fun _ => ⟨qs, given, hq⟩, by simp, fun _ => ⟨qs, hq, taken⟩⟩

/-- What the arm in row `k` of an accepted batch gets. -/
theorem gains_of_accepted (wf : b.WellFormed) (accepted : b.step (.batch batch) = (b', .ok ()))
    {k : Nat} {arm : ArmId} (row : (b.named batch)[k]? = some arm) :
    ∃ i n r q, b.ids[i]? = some arm ∧ Row batch b.algorithm k n r q ∧
      b.stats.Gains b'.stats i n r q := by
  have clear := clear_of_accepted wf.toReady accepted
  have nodup := nodup_of_clear wf.toReady clear (by omega)
  have length := length_of_clear clear (by omega)
  obtain ⟨hk, here⟩ := List.getElem?_eq_some_iff.mp row
  have known : arm ∈ b.ids := known_of_clear clear (by omega) (here ▸ List.getElem_mem hk)
  obtain ⟨i, place⟩ := List.getElem?_of_mem known
  have entry {xs : Values} (h : xs.length = (b.named batch).length) : ∃ x, xs[k]? = some x :=
    ⟨_, List.getElem?_eq_getElem (h ▸ hk)⟩
  obtain ⟨n, hn⟩ := entry length.counts
  obtain ⟨r, hr⟩ := entry length.rewards
  obtain ⟨q, supplied, derived, tracked⟩ := exists_square_of_clear clear hk hr
  obtain ⟨-, rfl⟩ := grow_of_accepted wf.toReady accepted
  refine ⟨i, n, r, q, place, ⟨hn, hr, supplied, derived⟩,
    Values.grownAt_of_named wf.fits.1 nodup place row hn,
    Values.grownAt_of_named wf.fits.2.1 nodup place row hr, ?_⟩
  intro kept given
  have tracks : b.algorithm.tracksVariance = true := by
    rw [← wf.fits.2.2.1, given]
    rfl
  obtain ⟨xs, hq, taken⟩ := tracked tracks
  refine ⟨_, squares_grow given _, ?_⟩
  rw [taken]
  exact Values.grownAt_of_named (wf.fits.2.2.2 kept given) nodup place row hq

/-- What is left of an arm that an accepted operation does not name. -/
theorem sameAt_of_accepted {op : Operation} (wf : b.WellFormed)
    (accepted : b.step op = (b', .ok ())) {i : Nat} {arm : ArmId} (place : b.ids[i]? = some arm)
    (unnamed : arm ∉ b.names op) : b.stats.SameAt b'.stats i := by
  obtain ⟨-, rfl⟩ := grow_of_accepted wf.toReady accepted
  rw [spread_eq]
  refine ⟨Values.getElem?_of_unnamed wf.fits.1 wf.proper.counts place unnamed,
    Values.getElem?_of_unnamed wf.fits.2.1 wf.proper.rewards place unnamed, fun kept given => ?_⟩
  refine ⟨_, squares_grow given _, ?_⟩
  cases taken : (Contribution.restrict _ b.algorithm).squares with
  | none => rfl
  | some added =>
    rw [Contribution.restrict] at taken
    split at taken
    · obtain ⟨xs, -, rfl⟩ := Option.map_eq_some_iff.mp taken
      exact Values.getElem?_of_unnamed (wf.fits.2.2.2 kept given) (wf.proper.squares kept given)
        place unnamed
    · cases taken

/-- The effect of an accepted batch, arm by arm and on the number of observations. -/
theorem accepted_batch (reachable : b.Reachable)
    (accepted : b.step (.batch batch) = (b', .ok ())) :
    (∀ k arm, (b.named batch)[k]? = some arm → ∃ i n r q, b.ids[i]? = some arm ∧
      Row batch b.algorithm k n r q ∧ b.stats.Gains b'.stats i n r q) ∧
    (∀ i arm, b.ids[i]? = some arm → arm ∉ b.named batch → b.stats.SameAt b'.stats i) ∧
    b'.stats.total.toNat = b.stats.total.toNat +
      (Values.spread b.ids (b.named batch) batch.counts).laneSum.toUInt64.toNat ∧
    (∀ other b'', b.step (.batch other) = (b'', .ok ()) → SameAssignment b batch other →
      b'' = b') := by
  have wf := reachable.wellFormed
  obtain ⟨room, grown⟩ := grow_of_accepted wf.toReady accepted
  refine ⟨fun k arm row => gains_of_accepted wf accepted row,
    fun i arm place unnamed => sameAt_of_accepted wf accepted place unnamed, ?_, ?_⟩
  · rw [grown]
    exact (UInt64.toNat_add _ _).trans (Nat.mod_eq_of_lt room)
  · intro other b'' accepted' same
    rw [grown, (grow_of_accepted wf.toReady accepted').2,
      spread_of_sameAssignment wf.toReady (clear_of_accepted wf.toReady accepted)
        (clear_of_accepted wf.toReady accepted') same]

/-- Two observations of the second of two arms, and then one batch of both arms in two orders: the
first is added as it is, the second has its values put in their places before. -/
theorem accepted_batch_of_one_arm : ∃ b b' b'' : Bandit, b.Reachable ∧
    b.step (.batch ⟨[2], [1], some [1], some [.ofInt 1]⟩) = (b', .ok ()) ∧
    (∀ k arm, (b.named ⟨[2], [1], some [1], some [.ofInt 1]⟩)[k]? = some arm →
      ∃ i n r q, b.ids[i]? = some arm ∧
        Row ⟨[2], [1], some [1], some [.ofInt 1]⟩ b.algorithm k n r q ∧
        b.stats.Gains b'.stats i n r q) ∧
    b.stats.SameAt b'.stats 0 ∧
    b.step (.batch ⟨[3, 1], [0.5, 1], some [0.25, 1], some b.ids⟩) = (b'', .ok ()) ∧
    b.step (.batch ⟨[1, 3], [1, 0.5], some [1, 0.25], some b.ids.reverse⟩) = (b'', .ok ()) := by
  obtain ⟨b, hb, -, reachable⟩ := exists_create (.count 2) .tuned (by decide) (by decide)
  have ids : b.ids = [.ofInt 0, .ofInt 1] := by
    rw [← hb]
    decide
  have accepted : (b.step (.batch ⟨[2], [1], some [1], some [.ofInt 1]⟩)).2 = .ok () := by
    rw [← hb]
    decide +kernel
  have straight :
      (b.step (.batch ⟨[3, 1], [0.5, 1], some [0.25, 1], some b.ids⟩)).2 = .ok () := by
    rw [← hb]
    decide +kernel
  have permuted :
      (b.step (.batch ⟨[1, 3], [1, 0.5], some [1, 0.25], some b.ids.reverse⟩)).2 = .ok () := by
    rw [← hb]
    decide +kernel
  have same : SameAssignment b ⟨[3, 1], [0.5, 1], some [0.25, 1], some b.ids⟩
      ⟨[1, 3], [1, 0.5], some [1, 0.25], some b.ids.reverse⟩ := by
    have swap {x y : Float} (p : ArmId × Float) :
        p ∈ b.ids.zip [x, y] ↔ p ∈ b.ids.reverse.zip [y, x] := by
      simp [ids, or_comm]
    refine ⟨swap, swap, fun _ qs given qs' given' => ?_⟩
    obtain ⟨rfl, rfl⟩ := And.intro (Option.some_inj.mp given) (Option.some_inj.mp given')
    exact swap
  have effect := accepted_batch reachable (Prod.ext rfl accepted)
  have equal := (accepted_batch reachable (Prod.ext rfl straight)).2.2.2 _ _
    (Prod.ext rfl permuted) same
  refine ⟨b, _, _, reachable, Prod.ext rfl accepted, effect.1, effect.2.1 0 (.ofInt 0) ?_ ?_,
    Prod.ext rfl straight, Prod.ext equal permuted⟩
  · rw [ids]
    rfl
  · rw [← hb]
    decide

end Accepted

end Bandit

end UpperConfidence
