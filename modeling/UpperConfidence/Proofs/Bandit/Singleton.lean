import UpperConfidence.Proofs.Bandit.Lockstep
import UpperConfidence.Proofs.Bandit.Transfer

/-!
# Batches of one observation

A single observation has a path of its own: it looks up one position, always places its
values and squares the reward itself. It does what a batch of one arm does that comes with
the square of the reward. That batch is looked up as a list, its values are taken as they
are if its arm is the only one, and its square may be replaced by the reward. None of this
shows, in how either ends and in what it leaves behind, as long as the reward is its own
square wherever it replaces it.
-/

namespace UpperConfidence

/-- The batch of a single observation. -/
def Batch.ofSingle (arm : ArmId) (reward : Float) : Batch :=
  ⟨[1], [reward], some [reward * reward], some [arm]⟩

/-- The same operation with a batch for a single observation. -/
def Operation.asBatch : Operation → Operation
  | .batch given => .batch given
  | .single arm reward => .batch (.ofSingle arm reward)

namespace Bandit

variable {b : Bandit} {op op' : Operation} {arm : ArmId} {r : Float}

/-- Operations that add the same do the same, unless one of them is rejected. -/
theorem step_eq_of_same (ready : b.Ready) {c c' : Contribution}
    (contributed : b.contribution op = .ok c) (contributed' : b.contribution op' = .ok c')
    (same : (b.spread op).Same (b.spread op')) : b.step op = b.step op' := by
  rw [step_of_same ready contributed (same_of_contribution ready contributed),
    step_of_same ready contributed' (same_of_contribution ready contributed'),
    Contribution.observed_congr same, Stats.grow_congr ready.proper same]

/-! ## One arm -/

/-- The batch adds the same as the observation, even if the reward replaces its square. -/
theorem same_spread_ofSingle
    (binary : b.algorithm = .tunedBernoulli → (r == 0) = true ∨ (r == 1) = true) :
    (b.spread (.single arm r)).Same (b.spread (.batch (.ofSingle arm r))) where
  counts := .refl _
  rewards := .refl _
  squares := by
    simp only [spread, Contribution.spread, Contribution.restrict]
    cases algorithm : b.algorithm with
    | tunedBernoulli =>
      exact .some (Values.spread_singleton_congr b.ids arm (sameAddend_square (binary algorithm)))
    | tuned => exact .some (.refl _)
    | _ => exact .none

theorem clear_ofSingle (known : arm ∈ b.ids) (r : Float) :
    ∀ j < 7, ∀ e, ¬ Obstacle b (.ofSingle arm r) j e :=
  clear_of_lengths (List.nodup_singleton arm) (by simpa [named, Batch.ofSingle] using known) rfl rfl
    (by simp [Batch.ofSingle]) (by simp [Batch.ofSingle])

/-- The batch of an unknown arm is rejected for that arm. -/
theorem contribution_ofSingle_of_unknown (ready : b.Ready) (unknown : arm ∉ b.ids) (r : Float) :
    b.contribution (.batch (.ofSingle arm r)) = .error (.unknownArm arm b.ids) := by
  have other : [] ++ arm :: [] ≠ b.ids := by
    intro all
    exact unknown (all ▸ List.mem_singleton_self arm)
  refine contribution_of_obstacle ready (.unknown rfl other (List.nil_subset _) unknown) ?_
  intro j hj e obstacle
  cases obstacle with
  | missingSquares _ missing => cases missing
  | rewards h => exact h rfl
  | squares given h =>
    obtain rfl := Option.some_inj.mp given
    exact h rfl
  | @repeated pre post other given _ _ mem =>
    -- a list of one arm has no part before a later arm
    have one := congrArg List.length (Option.some_inj.mp given)
    have part := List.length_pos_of_mem mem
    simp at one
    omega
  | unknown => omega
  | counts => omega
  | overflow => omega

theorem step_single (ready : b.Ready) (arm : ArmId)
    (binary : b.algorithm = .tunedBernoulli → (r == 0) = true ∨ (r == 1) = true) :
    b.step (.single arm r) = b.step (.batch (.ofSingle arm r)) := by
  by_cases known : arm ∈ b.ids
  · obtain ⟨c, contributed, -⟩ := contribution_single ready known r
    obtain ⟨c', contributed', -⟩ := contribution_of_clear ready (clear_ofSingle known r)
    exact step_eq_of_same ready contributed contributed' (same_spread_ofSingle binary)
  · refine step_congr ?_
    rw [contribution_single_of_unknown ready known, contribution_ofSingle_of_unknown ready known]

/-! ## Runs -/

theorem steps_asBatch (wf : b.WellFormed) {ops : List Operation}
    (binary : b.algorithm = .tunedBernoulli →
      ∀ arm r, .single arm r ∈ ops → (r == 0) = true ∨ (r == 1) = true) :
    b.steps (ops.map .asBatch) = b.steps ops := by
  induction ops generalizing b with
  | nil => rfl
  | cons op ops ih =>
    have first : b.step op.asBatch = b.step op := by
      cases op with
      | batch given => rfl
      | single arm r =>
        exact (step_single wf.toReady arm fun bernoulli =>
          binary bernoulli arm r List.mem_cons_self).symm
    have rest := ih (wf.step op) fun bernoulli arm r mem =>
      binary ((wf.step_fixed op).2.symm.trans bernoulli) arm r (List.mem_cons_of_mem _ mem)
    rw [List.map_cons, steps, steps, first, rest]

/-- A single observation is the batch of one arm with the square of the reward, and in a run each of
them can stand for the other. For a bandit that takes rewards for their squares the reward has to be
zero or one. -/
theorem single_is_batch_of_one {b : Bandit} (reachable : b.Reachable) :
    (∀ arm r, (b.algorithm = .tunedBernoulli → (r == 0) = true ∨ (r == 1) = true) →
      b.step (.single arm r) = b.step (.batch ⟨[1], [r], some [r * r], some [arm]⟩)) ∧
    ∀ ops : List Operation, (b.algorithm = .tunedBernoulli →
        ∀ arm r, .single arm r ∈ ops → (r == 0) = true ∨ (r == 1) = true) →
      b.steps (ops.map .asBatch) = b.steps ops :=
  ⟨fun arm _ binary => step_single reachable.wellFormed.toReady arm binary,
    fun _ binary => steps_asBatch reachable.wellFormed binary⟩

/-- The only arm of a bandit, whose batch is taken as it is, and an arm that it does not have. -/
theorem single_is_batch_of_one_of_only_arm : ∃ b : Bandit, b.Reachable ∧
    b.algorithm = .tunedBernoulli ∧ b.ids = [.ofInt 0] ∧
    b.step (.single (.ofInt 0) 1) =
      b.step (.batch ⟨[1], [1], some [1 * 1], some [.ofInt 0]⟩) ∧
    b.steps [.batch ⟨[1], [1], some [1 * 1], some [.ofInt 0]⟩,
        .batch ⟨[1], [0], some [0 * 0], some [.ofInt 7]⟩] =
      b.steps [.single (.ofInt 0) 1, .single (.ofInt 7) 0] := by
  obtain ⟨b, hb, created, reachable⟩ :=
    exists_create (.count 1) .tunedBernoulli (by decide) (by decide)
  have fixed : b.algorithm = .tunedBernoulli ∧ b.ids = [.ofInt 0] := by
    rw [← hb]
    exact ⟨rfl, rfl⟩
  obtain ⟨step, run⟩ := single_is_batch_of_one reachable
  refine ⟨b, reachable, fixed.1, fixed.2, step _ 1 fun _ => .inr (by decide), ?_⟩
  refine run [.single (.ofInt 0) 1, .single (.ofInt 7) 0] fun _ arm r mem => ?_
  simp only [List.mem_cons, Operation.single.injEq, List.not_mem_nil, or_false] at mem
  rcases mem with ⟨-, rfl⟩ | ⟨-, rfl⟩ <;> decide

end Bandit

end UpperConfidence
