import UpperConfidence.Proofs.Testbed.Replay
import UpperConfidence.Proofs.Values.Counting

/-!
# What a history has accepted

The operations of a history that succeed lead to the same bandit on their own, the
rounds of a testbed among them. If their counts are natural numbers that add up to
at most `2 ^ 53`, then the counts of the arms are exact, and so is the number of
observations, although it grows by rounded sums.
-/

namespace UpperConfidence

/-- The counts that an operation has. -/
def Operation.counts : Operation → Values
  | .batch given => given.counts
  | .single .. => [1]

/-- The operations of an activity that succeed, in order. -/
def Activity.accepted (b : Bandit) : Activity → List Operation
  | .operation op =>
    match b.apply op with
    | .ok _ => [op]
    | .error _ => []
  | .play t fns source steps drawn =>
    (t.run fns source steps b drawn).trace.map (Play.operation b.ids)

namespace Bandit

/-- The operations of a history that succeed, in order. -/
def accepted (b : Bandit) : List Activity → List Operation
  | [] => []
  | activity :: activities => activity.accepted b ++ (b.perform activity).accepted activities

theorem accepted_append (b : Bandit) (before rest : List Activity) :
    b.accepted (before ++ rest) = b.accepted before ++ (b.history before).accepted rest := by
  induction before generalizing b <;> grind [accepted, history]

theorem foldlM_apply_append {b b' b'' : Bandit} {ops ops' : List Operation}
    (first : ops.foldlM apply b = .ok b') (second : ops'.foldlM apply b' = .ok b'') :
    (ops ++ ops').foldlM apply b = .ok b'' := by
  rw [List.foldlM_append, first]
  exact second

theorem foldlM_apply_cons {b b'' : Bandit} {op : Operation} {ops : List Operation}
    (h : (op :: ops).foldlM apply b = .ok b'') :
    ∃ b', b.step op = (b', .ok ()) ∧ ops.foldlM apply b' = .ok b'' := by
  obtain ⟨b', applied, rest⟩ := bind_eq_ok_iff.mp h
  exact ⟨b', apply_eq_ok_iff.mp applied, rest⟩

namespace WellFormed

variable {b : Bandit} (wf : b.WellFormed)
include wf

theorem foldlM_accepted_activity (activity : Activity) :
    (activity.accepted b).foldlM apply b = .ok (b.perform activity) := by
  cases activity with
  | operation op =>
    cases applied : b.apply op with
    | error e =>
      simp only [Activity.accepted, Bandit.perform, applied, step_of_apply_eq_error applied]
      rfl
    | ok b' =>
      simp only [Activity.accepted, Bandit.perform, applied, apply_eq_ok_iff.mp applied,
        List.foldlM_cons]
      rfl
  | play t fns source steps drawn =>
    simp only [Activity.accepted, Bandit.perform]
    by_cases size : b.size = t.size
    · obtain ⟨drawn', replay, -⟩ :=
        Testbed.run_replay fns source.words source.attempts wf size steps drawn
      exact replay.foldlM wf
    · rw [Testbed.run_of_size_ne size]
      rfl

theorem perform (activity : Activity) : (b.perform activity).WellFormed := by
  have single := (wf.history [activity]).1
  rwa [Bandit.history, List.foldl_cons, List.foldl_nil] at single

/-- A history comes to the operations that it accepts. -/
theorem foldlM_accepted (activities : List Activity) :
    (b.accepted activities).foldlM apply b = .ok (b.history activities) := by
  induction activities generalizing b with
  | nil => rfl
  | cons activity activities ih =>
    exact foldlM_apply_append (wf.foldlM_accepted_activity activity) (ih (wf.perform activity))

end WellFormed

/-! ## Counts -/

/-- The counts are natural numbers that add up to `n`, the number of observations. -/
structure Tallied (b : Bandit) (n : ℕ) : Prop where
  counts : b.stats.counts.Counting n
  total : b.stats.total.toNat = n

theorem stats_of_create {config : Config} {b : Bandit} (h : create config = .ok b) :
    b.stats = .fresh b.size b.algorithm.tracksVariance := by
  obtain ⟨ids, -, indexing⟩ := bind_eq_ok_iff.mp h
  obtain ⟨index, -, made⟩ := bind_eq_ok_iff.mp indexing
  obtain rfl := Except.ok.inj made
  rfl

theorem tallied_of_create {config : Config} {b : Bandit} (h : create config = .ok b) :
    b.Tallied 0 := by
  constructor <;> rw [stats_of_create h]
  · exact Values.counting_zeros _
  · rfl

variable {b b' : Bandit} {op : Operation} {m n : ℕ}

/-- What is accepted is spread over known arms. -/
theorem counting_spread (ready : b.Ready) (place : b.Placeable op) (counts : op.counts.Counting n) :
    (b.spread op).counts.Counting n := by
  have length := place.length.counts
  cases op <;> exact counts.spread ready.nodup place.nodup place.known length

theorem observed_of_counting {c : Contribution} (counts : c.counts.Counting n)
    (bound : n ≤ 2 ^ 53) : c.observed.toNat = n := by
  rw [Contribution.observed, counts.laneSum bound]
  exact Double.toNat_toUInt64 (Double.value_ofNat bound) (by omega)

namespace Tallied

theorem step (wf : b.WellFormed) (h : b.Tallied m) (accepted : b.step op = (b', .ok ()))
    (counts : op.counts.Counting n) (bound : m + n ≤ 2 ^ 53) : b'.Tallied (m + n) := by
  obtain ⟨c, contributed⟩ := exists_contribution accepted
  have place := placeable_of_contribution wf.toReady contributed
  have spread := counting_spread wf.toReady place counts
  have total := total_of_accepted wf.toReady accepted
  rw [observed_of_counting spread (by omega), h.total] at total
  obtain ⟨-, rfl⟩ := grow_of_accepted wf.toReady accepted
  have length : b.stats.counts.length = (b.spread op).counts.length := by
    rw [wf.fits.1, (hasLength_spread b op).counts]
  exact ⟨h.counts.add spread length bound, total⟩

theorem foldlM (wf : b.WellFormed) (h : b.Tallied m) {ops : List Operation}
    (accepted : ops.foldlM apply b = .ok b')
    (counts : Values.Counting (ops.flatMap Operation.counts) n) (bound : m + n ≤ 2 ^ 53) :
    b'.Tallied (m + n) := by
  induction ops generalizing b m n with
  | nil =>
    obtain rfl : b = b' := Except.ok.inj accepted
    rw [Values.counting_nil_iff.mp counts]
    exact h
  | cons op ops ih =>
    obtain ⟨b₁, first, rest⟩ := foldlM_apply_cons accepted
    rw [List.flatMap_cons] at counts
    obtain ⟨k, l, head, tail, rfl⟩ := Values.counting_append_iff.mp counts
    have kept := wf.step op
    rw [first] at kept
    rw [← Nat.add_assoc] at bound ⊢
    exact ih kept (h.step wf first head (by omega)) rest tail bound

end Tallied

/-- After any history, if the accepted counts are natural numbers that add up to at most `2 ^ 53`,
nothing has been lost in rounding. -/
theorem tallied_of_history {config : Config} {start : Bandit}
    (created : create config = .ok start) {activities : List Activity}
    (counts : Values.Counting ((start.accepted activities).flatMap Operation.counts) n)
    (bound : n ≤ 2 ^ 53) : (start.history activities).Tallied n := by
  have wf := (wellFormed_of_create created).1
  have tallied := (tallied_of_create created).foldlM wf (wf.foldlM_accepted activities) counts
    (by rwa [Nat.zero_add])
  rwa [Nat.zero_add] at tallied

end Bandit

end UpperConfidence
