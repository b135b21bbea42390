import UpperConfidence.Proofs.Bandit.Assignment

/-!
# Outcomes of operations

Whether an operation succeeds is decided before anything is added. What can be
in the way of a batch has an order, and the first obstacle is the one that is
reported. When there is none, the totals grow by the batch spread over all arms.
-/

namespace UpperConfidence

/-- What an operation has for the arms that it names. -/
def Operation.values (a : Algorithm) : Operation → Contribution
  | .batch given => ⟨given.counts, given.rewards, given.squaresFor a⟩
  | .single _ reward => ⟨[1], [reward], some [reward * reward]⟩

namespace Bandit

/-- An index with the place of every arm, and totals of which none is a negative zero. -/
structure Ready (b : Bandit) : Prop where
  sound : b.index.Sound
  proper : b.stats.Proper

theorem Ready.nodup {b : Bandit} (ready : b.Ready) : b.ids.Nodup := ready.sound.nodup

/-- The arms that a batch has totals for, in the order of its vectors. -/
def named (b : Bandit) (batch : Batch) : List ArmId := batch.arms.getD b.ids

/-- What an operation gives to the arms, spread over all of them. -/
def spread (b : Bandit) : Operation → Contribution
  | .batch batch =>
    (Contribution.mk batch.counts batch.rewards (batch.squaresFor b.algorithm)).spread b.ids
      (b.named batch) |>.restrict b.algorithm
  | .single arm reward =>
    (Contribution.mk [1] [reward] (some [reward * reward])).spread b.ids [arm]
      |>.restrict b.algorithm

/-- The arms that an operation has values for. -/
def names (b : Bandit) : Operation → List ArmId
  | .batch batch => b.named batch
  | .single arm _ => [arm]

theorem spread_eq (b : Bandit) (op : Operation) : b.spread op =
    ((op.values b.algorithm).spread b.ids (b.names op)).restrict b.algorithm := by
  cases op <;> rfl

/-- What is in the way of a batch, with its rank and the failure that reports it. -/
inductive Obstacle (b : Bandit) (batch : Batch) : Nat → Failure → Prop where
  | missingSquares (tuned : b.algorithm = .tuned) (missing : batch.squares = none) :
      Obstacle b batch 1 (.rejected (.missingSquares .tuned))
  | rewards (h : batch.rewards.length ≠ batch.counts.length) :
      Obstacle b batch 2
        (.rejected (.shapeMismatch .rewards batch.counts.length batch.rewards.length))
  | squares {qs : Values} (given : batch.squares = some qs)
      (h : qs.length ≠ batch.counts.length) :
      Obstacle b batch 3 (.rejected (.shapeMismatch .squares batch.counts.length qs.length))
  /-- The first arm that is one of the arms before it. -/
  | repeated {pre post : List ArmId} {arm : ArmId} (given : batch.arms = some (pre ++ arm :: post))
      (other : pre ++ arm :: post ≠ b.ids) (nodup : pre.Nodup) (mem : arm ∈ pre) :
      Obstacle b batch 4 (.rejected (.duplicateArm arm))
  /-- The first arm that the bandit does not have. -/
  | unknown {pre post : List ArmId} {arm : ArmId} (given : batch.arms = some (pre ++ arm :: post))
      (other : pre ++ arm :: post ≠ b.ids) (known : pre ⊆ b.ids) (h : arm ∉ b.ids) :
      Obstacle b batch 5 (.rejected (.unknownArm arm b.ids))
  | counts (h : batch.counts.length ≠ (b.named batch).length) :
      Obstacle b batch 6
        (.rejected (.shapeMismatch .counts (b.named batch).length batch.counts.length))
  | overflow (h : 2 ^ 64 ≤ b.stats.total.toNat + (b.spread (.batch batch)).observed.toNat) :
      Obstacle b batch 7 (.fault .countOverflow)

/-! ## Batches -/

section Batch

variable {b : Bandit} {batch : Batch} {k : Nat}

theorem supplied_of_clear (clear : ∀ j < k, ∀ e, ¬ Obstacle b batch j e) (hk : 1 < k)
    (tuned : b.algorithm = .tuned) : ∃ qs, batch.squares = some qs := by
  cases squares : batch.squares with
  | none => exact absurd (.missingSquares tuned squares) (clear 1 hk _)
  | some qs => exact ⟨qs, rfl⟩

theorem rewards_of_clear (clear : ∀ j < k, ∀ e, ¬ Obstacle b batch j e) (hk : 2 < k) :
    batch.rewards.length = batch.counts.length := by
  by_contra h
  exact clear 2 hk _ (.rewards h)

theorem squares_of_clear (clear : ∀ j < k, ∀ e, ¬ Obstacle b batch j e) (hk : 3 < k)
    {qs : Values} (given : batch.squares = some qs) : qs.length = batch.counts.length := by
  by_contra h
  exact clear 3 hk _ (.squares given h)

/-- Without an obstacle to it, the first check leaves those of the lengths. -/
theorem check_of_supplied (clear : ∀ j < k, ∀ e, ¬ Obstacle b batch j e) (hk : 1 < k) :
    batch.check b.algorithm = (do
      requireLength .rewards batch.counts.length batch.rewards.length
      match batch.squares with
      | some qs => requireLength .squares batch.counts.length qs.length
      | none => return) := by
  have supplied : ¬ (b.algorithm = .tuned ∧ batch.squares = none) := by
    rintro ⟨tuned, missing⟩
    exact clear 1 hk _ (.missingSquares tuned missing)
  exact if_neg supplied

theorem check_of_clear (clear : ∀ j < k, ∀ e, ¬ Obstacle b batch j e) (hk : 3 < k) :
    batch.check b.algorithm = .ok () := by
  have rewards := rewards_of_clear clear (by omega)
  rw [check_of_supplied clear (by omega), requireLength_eq_ok_iff.mpr rewards.symm]
  cases squares : batch.squares with
  | none => rfl
  | some qs => exact requireLength_eq_ok_iff.mpr (squares_of_clear clear hk squares).symm

theorem named_of_ne {b : Bandit} {batch : Batch} (h : b.named batch ≠ b.ids) :
    batch.arms = some (b.named batch) := by
  unfold named at h ⊢
  cases arms : batch.arms with
  | none => simp [arms] at h
  | some ids => rfl

theorem nodup_of_clear (ready : b.Ready) (clear : ∀ j < k, ∀ e, ¬ Obstacle b batch j e)
    (hk : 4 < k) : (b.named batch).Nodup := by
  by_contra h
  have other : b.named batch ≠ b.ids := by
    intro all
    rw [all] at h
    exact h ready.sound.nodup
  obtain ⟨pre, arm, post, eq, nodup, mem⟩ := exists_first_repeat h
  have given := named_of_ne other
  rw [eq] at given other
  exact clear 4 hk _ (.repeated given other nodup mem)

theorem known_of_clear (clear : ∀ j < k, ∀ e, ¬ Obstacle b batch j e) (hk : 5 < k) :
    b.named batch ⊆ b.ids := by
  by_contra h
  have other : b.named batch ≠ b.ids := by
    intro all
    rw [all] at h
    exact h (List.Subset.refl _)
  obtain ⟨pre, arm, post, eq, unknown, known⟩ := exists_first_unknown h
  have given := named_of_ne other
  rw [eq] at given other
  exact clear 5 hk _ (.unknown given other known unknown)

theorem length_of_clear (clear : ∀ j < k, ∀ e, ¬ Obstacle b batch j e) (hk : 6 < k) :
    (Contribution.mk batch.counts batch.rewards (batch.squaresFor b.algorithm)).HasLength
      (b.named batch).length := by
  have counts : batch.counts.length = (b.named batch).length := by
    by_contra h
    exact clear 6 hk _ (.counts h)
  have rewards : batch.rewards.length = (b.named batch).length :=
    (rewards_of_clear clear (by omega)).trans counts
  refine ⟨counts, rewards, ?_⟩
  intro qs given
  unfold Batch.squaresFor at given
  split at given
  · obtain rfl := Option.some_inj.mp given
    exact rewards
  · exact (squares_of_clear clear (by omega) given).trans counts

/-- Vectors of one length, for different known arms, leave no obstacle but an overflow. -/
theorem clear_of_lengths (nodup : (b.named batch).Nodup) (known : b.named batch ⊆ b.ids)
    (counts : batch.counts.length = (b.named batch).length)
    (rewards : batch.rewards.length = batch.counts.length)
    (squares : ∀ qs ∈ batch.squares, qs.length = batch.counts.length)
    (supplied : b.algorithm = .tuned → batch.squares ≠ none) :
    ∀ j < 7, ∀ e, ¬ Obstacle b batch j e := by
  intro j hj e obstacle
  cases obstacle with
  | missingSquares tuned missing => exact supplied tuned missing
  | rewards h => exact h rewards
  | squares given h => exact h (squares _ given)
  | repeated given other _ mem =>
    rw [named, given, Option.getD_some] at nodup
    exact List.disjoint_of_nodup_append nodup mem List.mem_cons_self
  | unknown given other _ h =>
    rw [named, given, Option.getD_some] at known
    exact h (known (by simp))
  | counts h => exact h counts
  | overflow => omega

/-- A batch that finds no obstacle but an overflow adds the same as the spread one. -/
theorem contribution_of_clear (ready : b.Ready) (clear : ∀ j < 7, ∀ e, ¬ Obstacle b batch j e) :
    ∃ c, b.contribution (.batch batch) = .ok c ∧ c.Same (b.spread (.batch batch)) := by
  obtain ⟨c, aligned, same⟩ := align_eq_ok ready.sound (nodup_of_clear ready clear (by omega))
    (known_of_clear clear (by omega)) (length_of_clear clear (by omega))
  refine ⟨c.restrict b.algorithm, ?_, same.restrict b.algorithm⟩
  rw [contribution, batchContribution, check_of_clear clear (by omega)]
  simp only [bind, Except.bind, aligned]
  rfl

theorem contribution_of_check_error {cause : Rejection}
    (h : batch.check b.algorithm = .error cause) :
    b.contribution (.batch batch) = .error cause := by
  rw [contribution, batchContribution, h]
  rfl

theorem contribution_of_align_error {cause : Rejection}
    (checked : batch.check b.algorithm = .ok ())
    (h : ∀ c : Contribution, c.counts = batch.counts → b.align batch.arms c = .error cause) :
    b.contribution (.batch batch) = .error cause := by
  rw [contribution, batchContribution, checked, h _ rfl]
  rfl

/-- The first obstacle is the one that is reported. -/
theorem contribution_of_obstacle (ready : b.Ready) {cause : Rejection}
    (h : Obstacle b batch k (.rejected cause)) (clear : ∀ j < k, ∀ e, ¬ Obstacle b batch j e) :
    b.contribution (.batch batch) = .error cause := by
  cases h with
  | missingSquares tuned missing =>
    apply contribution_of_check_error
    rw [Batch.check, if_pos ⟨tuned, missing⟩, tuned]
    rfl
  | rewards h =>
    apply contribution_of_check_error
    rw [check_of_supplied clear (by omega), requireLength_of_ne (Ne.symm h)]
    rfl
  | squares squares h =>
    apply contribution_of_check_error
    have rewards := rewards_of_clear clear (by omega)
    rw [check_of_supplied clear (by omega), requireLength_eq_ok_iff.mpr rewards.symm, squares]
    exact requireLength_of_ne (Ne.symm h)
  | @repeated pre post arm given other nodup mem =>
    apply contribution_of_align_error (check_of_clear clear (by omega))
    intro c _
    rw [given, align_named other, ArmIndex.positions_of_repeated post nodup mem]
    rfl
  | unknown given other known h =>
    apply contribution_of_align_error (check_of_clear clear (by omega))
    intro c _
    have nodup := nodup_of_clear ready clear (by omega)
    rw [named, given] at nodup
    have reported := ready.sound.positions_of_unknown nodup known h
    rw [given, align_named other, reported]
    rfl
  | counts h =>
    apply contribution_of_align_error (check_of_clear clear (by omega))
    intro c hc
    have nodup := nodup_of_clear ready clear (by omega)
    have known := known_of_clear clear (by omega)
    by_cases all : b.named batch = b.ids
    · have misfit : b.size ≠ batch.counts.length := by
        rw [all] at h
        exact Ne.symm h
      rw [align_canonical all, all, hc, requireLength_of_ne misfit]
      rfl
    · have resolved := ready.sound.positions_of_known nodup known
      rw [named_of_ne all, align_named all, resolved, hc]
      simp only [bind, Except.bind, requireLength_of_ne (Ne.symm h)]

theorem obstacle_fault {cause : Fault} (h : Obstacle b batch k (.fault cause)) :
    k = 7 ∧ cause = .countOverflow ∧
      2 ^ 64 ≤ b.stats.total.toNat + (b.spread (.batch batch)).observed.toNat := by
  cases h with
  | overflow h => exact ⟨rfl, rfl, h⟩

theorem exists_first_obstacle (h : ∃ k e, Obstacle b batch k e) :
    ∃ k e, Obstacle b batch k e ∧ ∀ j < k, ∀ e, ¬ Obstacle b batch j e := by
  classical
  obtain ⟨e, found⟩ := Nat.find_spec h
  exact ⟨Nat.find h, e, found, fun j hj e he => Nat.find_min h hj ⟨e, he⟩⟩

/-- A batch is rejected, or it finds no obstacle but an overflow. -/
theorem rejected_or_clear (ready : b.Ready) (batch : Batch) :
    (∃ cause, b.contribution (.batch batch) = .error cause) ∨
      ∀ j < 7, ∀ e, ¬ Obstacle b batch j e := by
  by_cases h : ∃ k e, Obstacle b batch k e
  · obtain ⟨k, e, found, clear⟩ := exists_first_obstacle h
    cases e with
    | rejected cause => exact .inl ⟨cause, contribution_of_obstacle ready found clear⟩
    | fault cause =>
      obtain ⟨rfl, -, -⟩ := obstacle_fault found
      exact .inr clear
  · exact .inr fun j _ e found => h ⟨j, e, found⟩

end Batch

/-! ## Single observations -/

section Single

variable {b : Bandit} {arm : ArmId} {reward : Float}

theorem contribution_single_of_unknown (ready : b.Ready) (h : arm ∉ b.ids) :
    b.contribution (.single arm reward) = .error (.unknownArm arm b.ids) := by
  have reported := ready.sound.position_of_notMem h
  rw [contribution, singleContribution, reported]
  rfl

theorem contribution_single (ready : b.Ready) (known : arm ∈ b.ids) (reward : Float) :
    ∃ c, b.contribution (.single arm reward) = .ok c ∧ c.Same (b.spread (.single arm reward)) := by
  obtain ⟨c, hc⟩ : ∃ c, Contribution.mk [1] [reward] (if b.algorithm.tracksVariance then
    some [reward * reward] else none) = c := ⟨_, rfl⟩
  have length : c.HasLength [arm].length := by
    subst hc
    refine ⟨rfl, rfl, fun qs given => ?_⟩
    split at given
    · obtain rfl := Option.some_inj.mp given
      rfl
    · cases given
  have listed : [arm] ⊆ b.ids := by simpa using known
  obtain ⟨d, placed, same⟩ :=
    Contribution.place_eq_ok ready.sound.nodup (List.nodup_singleton arm) listed length
  have spread : c.spread b.ids [arm] = b.spread (.single arm reward) := by
    subst hc
    unfold Bandit.spread Contribution.spread Contribution.restrict
    split <;> rfl
  refine ⟨d, ?_, spread ▸ same⟩
  have found := ready.sound.position_of_mem known
  rw [contribution, singleContribution, found]
  subst hc
  exact placed

/-- One observation is one more, whatever the number of arms and the place of the arm. -/
theorem observed_single (ready : b.Ready) (known : arm ∈ b.ids) :
    (b.spread (.single arm reward)).observed = 1 := by
  obtain ⟨φ, hφ⟩ : ∃ φ : Nat → Float, (fun n => if n = 0 then 0 else 1) = φ := ⟨_, rfl⟩
  have zero : φ 0 = 0 := by
    rw [← hφ]
    rfl
  have add : ∀ m n, m + n ≤ 1 → φ m + φ n = φ (m + n) := by
    intro m n h
    rw [← hφ]
    rcases (by omega : m = 0 ∧ n = 0 ∨ m = 0 ∧ n = 1 ∨ m = 1 ∧ n = 0) with
      ⟨rfl, rfl⟩ | ⟨rfl, rfl⟩ | ⟨rfl, rfl⟩ <;> decide
  have entries : Values.Whole φ (Values.spread b.ids [arm] [1])
      (b.ids.map fun other => if other = arm then 1 else 0) := by
    rw [Values.Whole, Values.spread, List.forall₂_map_left_iff, List.forall₂_map_right_iff,
      List.forall₂_same]
    intro other _
    by_cases same : other = arm
    · simp [same, ← hφ]
    · have differs : (other == arm) = false := by simpa using same
      simp [List.lookup_cons, differs, same, ← hφ]
  have total : (b.ids.map fun other => if other = arm then 1 else 0).sum = 1 :=
    sum_indicator ready.nodup known
  have sum := Values.laneSum_whole zero add entries total.le
  rw [total, ← hφ] at sum
  rw [Contribution.observed]
  change (Values.spread b.ids [arm] [1]).laneSum.toUInt64 = 1
  rw [sum]
  decide

end Single

/-! ## Steps -/

section Step

variable {b : Bandit} {op : Operation}

/-- What an operation contributes, or why it is rejected, decides what it does. -/
theorem step_eq (b : Bandit) (op : Operation) : b.step op = match b.contribution op with
    | .ok c => ((accept c).exec b).swap
    | .error cause => (b, .error (.rejected cause)) := by
  rw [step, operate, Procedure.exec_bind_of_ok (Procedure.exec_get b)]
  have checking := Procedure.exec_liftM ((b.contribution op).mapError Failure.rejected) b
  cases contributed : b.contribution op with
  | error cause =>
    rw [contributed] at checking
    rw [Procedure.exec_bind_of_error checking]
    rfl
  | ok c =>
    rw [contributed] at checking
    rw [Procedure.exec_bind_of_ok checking]

theorem step_congr {op' : Operation} (same : b.contribution op = b.contribution op') :
    b.step op = b.step op' := by
  rw [step_eq, step_eq, same]

theorem step_of_rejected {cause : Rejection} (h : b.contribution op = .error cause) :
    b.step op = (b, .error (.rejected cause)) := by
  rw [step_eq, h]

/-- What is contributed is added unless there are too many observations. Then the fault comes
before any of the updates. -/
theorem step_of_contribution {c : Contribution} (contributed : b.contribution op = .ok c) :
    b.step op = if b.stats.total.toNat + c.observed.toNat < 2 ^ 64 then
      ({ b with stats := b.stats.grow c }, .ok ()) else (b, .error (.fault .countOverflow)) := by
  rw [step_eq, contributed]
  simp only [accept, Procedure.exec_focus, Stats.exec_accumulate]
  split <;> rfl

/-- An operation that fails changes nothing. -/
theorem eq_of_step_error {b' : Bandit} {e : Failure} (failed : b.step op = (b', .error e)) :
    b' = b := by
  cases contributed : b.contribution op with
  | error cause =>
    rw [step_of_rejected contributed] at failed
    exact (Prod.mk.inj failed).1.symm
  | ok c =>
    rw [step_of_contribution contributed] at failed
    split at failed
    · simp at failed
    · exact (Prod.mk.inj failed).1.symm

theorem step_of_apply_eq_error {e : Failure} (h : b.apply op = .error e) :
    b.step op = (b, .error e) := by
  unfold apply at h
  split at h
  · simp at h
  · rename_i failed
    rw [failed, eq_of_step_error failed, ← Except.error.inj h]

theorem step_of_overflow {c : Contribution} (h : b.contribution op = .ok c)
    (same : c.Same (b.spread op))
    (full : 2 ^ 64 ≤ b.stats.total.toNat + (b.spread op).observed.toNat) :
    b.step op = (b, .error (.fault .countOverflow)) := by
  rw [step_of_contribution h, Contribution.observed_congr same, if_neg (not_lt.mpr full)]

/-- What is added are the values of the operation, spread over all arms. -/
theorem step_of_same (ready : b.Ready) {c : Contribution} (h : b.contribution op = .ok c)
    (same : c.Same (b.spread op)) :
    b.step op = if b.stats.total.toNat + (b.spread op).observed.toNat < 2 ^ 64 then
      ({ b with stats := b.stats.grow (b.spread op) }, .ok ())
      else (b, .error (.fault .countOverflow)) := by
  rw [step_of_contribution h, Contribution.observed_congr same, Stats.grow_congr ready.proper same]

theorem step_of_fits (ready : b.Ready) {c : Contribution} (h : b.contribution op = .ok c)
    (same : c.Same (b.spread op))
    (room : b.stats.total.toNat + (b.spread op).observed.toNat < 2 ^ 64) :
    b.step op = ({ b with stats := b.stats.grow (b.spread op) }, .ok ()) := by
  rw [step_of_same ready h same, if_pos room]

/-- What an operation contributes adds the same as its values spread over all arms. -/
theorem contribution_cases (ready : b.Ready) (op : Operation) :
    (∃ cause, b.contribution op = .error cause) ∨
      ∃ c, b.contribution op = .ok c ∧ c.Same (b.spread op) := by
  cases op with
  | batch batch =>
    rcases rejected_or_clear ready batch with rejected | clear
    · exact .inl rejected
    · exact .inr (contribution_of_clear ready clear)
  | single arm reward =>
    by_cases known : arm ∈ b.ids
    · exact .inr (contribution_single ready known reward)
    · exact .inl ⟨_, contribution_single_of_unknown ready known⟩

theorem exists_contribution {b' : Bandit} (accepted : b.step op = (b', .ok ())) :
    ∃ c, b.contribution op = .ok c := by
  cases contributed : b.contribution op with
  | error cause => simp [step_of_rejected contributed] at accepted
  | ok c => exact ⟨c, rfl⟩

theorem same_of_contribution (ready : b.Ready) {c : Contribution}
    (contributed : b.contribution op = .ok c) : c.Same (b.spread op) := by
  rcases contribution_cases ready op with ⟨cause, rejected⟩ | ⟨c', contributed', same⟩
  · simp [contributed] at rejected
  · rwa [Except.ok.inj (contributed.symm.trans contributed')]

/-- All that a step can do: nothing, or let the totals grow by the spread values. -/
theorem step_cases (ready : b.Ready) (op : Operation) :
    (∃ e, b.step op = (b, .error e)) ∨
      b.stats.total.toNat + (b.spread op).observed.toNat < 2 ^ 64 ∧
        b.step op = ({ b with stats := b.stats.grow (b.spread op) }, .ok ()) := by
  rcases contribution_cases ready op with ⟨cause, rejected⟩ | ⟨c, contributed, same⟩
  · exact .inl ⟨_, step_of_rejected rejected⟩
  · rcases Nat.lt_or_ge (b.stats.total.toNat + (b.spread op).observed.toNat) (2 ^ 64) with
      room | full
    · exact .inr ⟨room, step_of_fits ready contributed same room⟩
    · exact .inl ⟨_, step_of_overflow contributed same full⟩

/-- One value in each vector for each of some known arms, none of them twice. -/
structure Placeable (b : Bandit) (op : Operation) : Prop where
  nodup : (b.names op).Nodup
  known : b.names op ⊆ b.ids
  length : (op.values b.algorithm).HasLength (b.names op).length
  supplied : b.algorithm.tracksVariance = true → (op.values b.algorithm).squares.isSome

theorem clear_of_contribution (ready : b.Ready) {batch : Batch} {c : Contribution}
    (contributed : b.contribution (.batch batch) = .ok c) :
    ∀ j < 7, ∀ e, ¬ Obstacle b batch j e := by
  rcases rejected_or_clear ready batch with ⟨cause, rejected⟩ | clear
  · simp [contributed] at rejected
  · exact clear

theorem placeable_of_contribution (ready : b.Ready) {c : Contribution}
    (contributed : b.contribution op = .ok c) : b.Placeable op := by
  cases op with
  | single arm reward =>
    have known : arm ∈ b.ids := by
      by_contra unknown
      simp [contribution_single_of_unknown ready unknown] at contributed
    exact ⟨List.nodup_singleton arm, by simpa [names] using known,
      ⟨rfl, rfl, fun qs given => Option.some_inj.mp given ▸ rfl⟩, fun _ => rfl⟩
  | batch batch =>
    have clear := clear_of_contribution ready contributed
    refine ⟨nodup_of_clear ready clear (by omega), known_of_clear clear (by omega),
      length_of_clear clear (by omega), fun tracks => ?_⟩
    cases algorithm : b.algorithm with
    | tuned =>
      obtain ⟨qs, given⟩ := supplied_of_clear clear (by omega) algorithm
      simp [Operation.values, Batch.squaresFor, given]
    | tunedBernoulli => rfl
    | _ => simp [algorithm, Algorithm.tracksVariance] at tracks

end Step

end Bandit

end UpperConfidence
