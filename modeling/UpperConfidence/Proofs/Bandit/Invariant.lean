import UpperConfidence.Bandit.Summary
import UpperConfidence.Proofs.Bandit.History
import UpperConfidence.Proofs.Bandit.Outcome

/-!
# What holds of a bandit at all times

A new bandit has at least one arm, no arm twice, and zeros for all totals. Every
step keeps the arms and the algorithm, keeps the lengths of the totals, and
never makes a negative zero, for a sum is one only if both summands are. So
there is a score for each arm, and the choice between them always succeeds.
-/

namespace UpperConfidence

theorem Stats.proper_fresh (n : Nat) (tracks : Bool) : (fresh n tracks).Proper where
  counts := Values.proper_zeros n
  rewards := Values.proper_zeros n
  squares := by
    intro qs given
    cases tracks with
    | false => cases given
    | true =>
      obtain rfl := Option.some_inj.mp given
      exact Values.proper_zeros n

theorem Stats.Proper.grow {s : Stats} (h : s.Proper) (c : Contribution) : (s.grow c).Proper where
  counts := h.counts.add c.counts
  rewards := h.rewards.add c.rewards
  squares := by
    intro qs given
    obtain ⟨old, kept, rfl | ⟨new, -, rfl⟩⟩ := of_mem_addSquares given
    · exact h.squares qs kept
    · exact (h.squares old kept).add new

theorem Stats.Fits.grow {s : Stats} {n : Nat} {tracks : Bool} (h : s.Fits n tracks)
    {c : Contribution} (length : c.HasLength n) : (s.grow c).Fits n tracks := by
  obtain ⟨hc, hr, hs, hq⟩ := h
  refine ⟨?_, ?_, ?_, fun qs given => ?_⟩
  · simp [Stats.grow, hc, length.counts]
  · simp [Stats.grow, hr, length.rewards]
  · rw [Stats.grow, isSome_addSquares, hs]
  · obtain ⟨old, kept, rfl | ⟨new, added, rfl⟩⟩ := of_mem_addSquares given
    · exact hq qs kept
    · simp [hq old kept, length.squares new added]

namespace Bandit

/-- Arms, positions and totals agree. -/
structure WellFormed (b : Bandit) : Prop extends b.Ready where
  nonempty : b.ids ≠ []
  fits : b.stats.Fits b.size b.algorithm.tracksVariance

theorem wellFormed_of_create {config : Config} {b : Bandit} (h : create config = .ok b) :
    b.WellFormed ∧ b.ids = config.arms.toList ∧ b.algorithm = config.algorithm := by
  obtain ⟨ids, resolved, indexing⟩ := bind_eq_ok_iff.mp h
  obtain ⟨index, indexed, made⟩ := bind_eq_ok_iff.mp indexing
  obtain ⟨nonempty, -, rfl⟩ := Arms.resolve_eq_ok_iff.mp resolved
  obtain ⟨sound, all⟩ := ArmIndex.sound_of_ofList indexed
  obtain rfl := Except.ok.inj made
  refine ⟨⟨⟨sound, Stats.proper_fresh _ _⟩, ?_, Stats.fits_fresh _ _⟩, all, rfl⟩
  rw [Bandit.ids, all]
  exact nonempty

/-- The bandit over given arms that has observed nothing. -/
def blank (arms : Arms) (a : Algorithm) : Bandit where
  index := ⟨arms.toList, arms.toList.zipIdx⟩
  algorithm := a
  stats := .fresh arms.toList.length a.tracksVariance

/-- Different arms make a bandit. -/
theorem exists_create (arms : Arms) (a : Algorithm) (nonempty : arms.toList ≠ [])
    (nodup : arms.toList.Nodup) :
    ∃ b, blank arms a = b ∧ create ⟨arms, a⟩ = .ok b ∧ b.Reachable := by
  have resolved : arms.resolve = .ok arms.toList :=
    Arms.resolve_eq_ok_iff.mpr ⟨nonempty, nodup, rfl⟩
  have indexed : ArmIndex.ofList arms.toList = .ok ⟨arms.toList, arms.toList.zipIdx⟩ :=
    ArmIndex.ofList_eq_ok_iff.mpr ⟨nodup, rfl⟩
  have created : create ⟨arms, a⟩ = .ok (blank arms a) := by
    simp only [create, resolved, indexed, bind, Except.bind]
    rfl
  exact ⟨_, rfl, created, ⟨_, _, [], created, rfl⟩⟩

/-- A spread contribution has an entry for each arm. -/
theorem hasLength_spread (b : Bandit) (op : Operation) : (b.spread op).HasLength b.size := by
  have spread (named : List ArmId) (c : Contribution) :
      ((c.spread b.ids named).restrict b.algorithm).HasLength b.size := by
    refine ⟨Values.length_spread _ _ _, Values.length_spread _ _ _, fun qs given => ?_⟩
    unfold Contribution.restrict at given
    split at given
    · obtain ⟨xs, -, rfl⟩ := Option.map_eq_some_iff.mp given
      exact Values.length_spread _ _ _
    · cases given
  cases op <;> exact spread _ _

namespace WellFormed

variable {b : Bandit} (h : b.WellFormed)
include h

theorem step (op : Operation) : (b.step op).1.WellFormed := by
  rcases step_cases h.toReady op with ⟨e, eq⟩ | ⟨-, eq⟩
  · rwa [eq]
  · rw [eq]
    exact ⟨⟨h.sound, h.proper.grow _⟩, h.nonempty, h.fits.grow (hasLength_spread b op)⟩

/-- No step changes the arms or the algorithm. -/
theorem step_fixed (op : Operation) :
    (b.step op).1.index = b.index ∧ (b.step op).1.algorithm = b.algorithm := by
  rcases step_cases h.toReady op with ⟨e, eq⟩ | ⟨-, eq⟩ <;> rw [eq] <;> exact ⟨rfl, rfl⟩

theorem history (activities : List Activity) :
    (b.history activities).WellFormed ∧ (b.history activities).index = b.index ∧
      (b.history activities).algorithm = b.algorithm := by
  refine history_induction (P := fun b' => b'.WellFormed ∧ b'.index = b.index ∧
    b'.algorithm = b.algorithm) ⟨h, rfl, rfl⟩ ?_ activities
  rintro b' op ⟨wf, index, algorithm⟩
  obtain ⟨index', algorithm'⟩ := wf.step_fixed op
  exact ⟨wf.step op, index'.trans index, algorithm'.trans algorithm⟩

end WellFormed

theorem Reachable.wellFormed {b : Bandit} (h : b.Reachable) : b.WellFormed := by
  obtain ⟨config, start, activities, created, rfl⟩ := h
  exact ((wellFormed_of_create created).1.history activities).1

/-! ## Squares -/

/-- An operation that is not rejected has squares for all arms where the variance is tracked. -/
theorem squares_of_contribution {b : Bandit} (ready : b.Ready) {op : Operation} {c : Contribution}
    (contributed : b.contribution op = .ok c) (tracks : b.algorithm.tracksVariance = true) :
    ∃ added, c.squares = some added ∧ added.length = b.ids.length := by
  have place := placeable_of_contribution ready contributed
  obtain ⟨qs, given⟩ := Option.isSome_iff_exists.mp (place.supplied tracks)
  have squares : (b.spread op).squares = some (qs.spread b.ids (b.names op)) := by
    rw [spread_eq, Contribution.restrict, if_pos tracks, Contribution.spread, given]
    rfl
  obtain ⟨added, taken, length⟩ := (same_of_contribution ready contributed).exists_squares squares
  exact ⟨added, taken, length.trans (Values.length_spread _ _ _)⟩

/-! ## The invariant -/

/-- What holds of a bandit made from `config` at all times. -/
structure Intact (b : Bandit) (config : Config) : Prop where
  ids : b.ids = config.arms.toList
  algorithm : b.algorithm = config.algorithm
  nonempty : b.ids ≠ []
  nodup : b.ids.Nodup
  /-- The table sends every arm to its place and has no other arm. -/
  table : ∀ arm i, b.index.table.lookup arm = some i ↔ b.ids[i]? = some arm
  counts : b.stats.counts.length = b.ids.length
  rewards : b.stats.rewards.length = b.ids.length
  tracked : b.stats.squares.isSome = b.algorithm.tracksVariance
  squares : ∀ qs ∈ b.stats.squares, qs.length = b.ids.length
  /-- Where squares are tracked, an accepted operation adds to all three vectors. -/
  pace : b.algorithm.tracksVariance = true → ∀ op b', b.step op = (b', .ok ()) →
    ∃ c kept added, b.contribution op = .ok c ∧ b.stats.squares = some kept ∧
      c.squares = some added ∧ added.length = b.ids.length ∧
      b'.stats.counts = b.stats.counts.add c.counts ∧
      b'.stats.rewards = b.stats.rewards.add c.rewards ∧
      b'.stats.squares = some (kept.add added)
  proper : b.stats.Proper

/-- What can be read off a bandit at all times. -/
structure Readable (b : Bandit) : Prop where
  scores : ∀ (a : Algorithm) ln, (a.scores ln b.stats).length = b.ids.length
  averages : b.averages.length = b.ids.length
  /-- A summary has a part for each arm. -/
  summary : b.armSummaries.length = b.ids.length
  /-- The chosen position is the place of an arm. -/
  action : ∀ ln, ∃ arm, b.ids[(b.scores ln).firstMaximum]? = some arm ∧ b.action ln = .ok arm

namespace WellFormed

variable {b : Bandit} (h : b.WellFormed)
include h

theorem pace (tracks : b.algorithm.tracksVariance = true) {op : Operation} {b' : Bandit}
    (accepted : b.step op = (b', .ok ())) :
    ∃ c kept added, b.contribution op = .ok c ∧ b.stats.squares = some kept ∧
      c.squares = some added ∧ added.length = b.ids.length ∧
      b'.stats.counts = b.stats.counts.add c.counts ∧
      b'.stats.rewards = b.stats.rewards.add c.rewards ∧
      b'.stats.squares = some (kept.add added) := by
  obtain ⟨kept, hkept⟩ := Option.isSome_iff_exists.mp (h.fits.2.2.1.trans tracks)
  obtain ⟨c, contributed⟩ := exists_contribution accepted
  obtain ⟨added, hadded, length⟩ := squares_of_contribution h.toReady contributed tracks
  rw [step_of_contribution contributed] at accepted
  split at accepted
  · obtain rfl := (Prod.mk.inj accepted).1
    refine ⟨c, kept, added, contributed, hkept, hadded, length, rfl, rfl, ?_⟩
    simp only [Stats.grow, hkept, hadded]
    rfl
  · simp at accepted

theorem action (ln : Float → Float) :
    ∃ arm, b.ids[(b.scores ln).firstMaximum]? = some arm ∧ b.action ln = .ok arm := by
  have length : (b.scores ln).length = b.ids.length := Algorithm.length_scores h.fits
  have bound : (b.scores ln).firstMaximum < b.ids.length := by
    rw [← length]
    apply Values.firstMaximum_lt_length
    rw [← List.length_pos_iff, length, List.length_pos_iff]
    exact h.nonempty
  refine ⟨_, List.getElem?_eq_getElem bound, ?_⟩
  have chosen : b.choice? ln = some (b.ids[(b.scores ln).firstMaximum],
      (b.scores ln)[(b.scores ln).firstMaximum]) := by
    simp only [choice?]
    rw [List.getElem?_eq_getElem (by simpa [length] using bound), List.getElem_zip]
  rw [Bandit.action, chosen]

theorem readable : b.Readable where
  scores _ _ := Algorithm.length_scores h.fits
  averages := h.fits.length_averages
  summary := by
    simp [armSummaries, averages, h.fits.length_averages, h.fits.1, ids, size, ArmIndex.size]
  action := h.action

end WellFormed

/-- Whatever is done with a new bandit, it stays intact and readable. -/
theorem intact_of_history {config : Config} {start : Bandit} (created : create config = .ok start)
    (activities : List Activity) :
    (start.history activities).Intact config ∧ (start.history activities).Readable := by
  obtain ⟨wf, ids, algorithm⟩ := wellFormed_of_create created
  obtain ⟨h, index, algorithm'⟩ := wf.history activities
  refine ⟨{
    ids := ?_
    algorithm := algorithm'.trans algorithm
    nonempty := h.nonempty
    nodup := h.sound.nodup
    table := fun arm i => h.sound.lookup_eq_some_iff
    counts := h.fits.1
    rewards := h.fits.2.1
    tracked := h.fits.2.2.1
    squares := h.fits.2.2.2
    pace := fun tracks op b' => h.pace tracks
    proper := h.proper }, h.readable⟩
  rw [← ids, Bandit.ids, index, Bandit.ids]

/-- A tuned bandit of two arms after an accepted and a rejected operation. -/
theorem intact_of_two_arms : ∃ start, create ⟨.count 2, .tuned⟩ = .ok start ∧
    (start.history [.operation (.single (.ofInt 1) 1), .operation (.single (.ofInt 2) 1)]).Intact
      ⟨.count 2, .tuned⟩ ∧
    (start.history [.operation (.single (.ofInt 1) 1),
      .operation (.single (.ofInt 2) 1)]).Readable := by
  obtain ⟨start, -, created, -⟩ := exists_create (.count 2) .tuned (by decide) (by decide)
  exact ⟨start, created, intact_of_history created _⟩

end Bandit

end UpperConfidence
