import UpperConfidence.Bandit.Batch

/-!
# Operations on a bandit

An operation is checked and brought into a contribution, which is then added to
the totals. It is rejected if it does not fit, and it fails with a fault if the
number of observations overflows. A failed operation leaves behind whatever its
updates have made of the bandit until then.
-/

namespace UpperConfidence

/-- A way to give observations to a bandit. -/
inductive Operation where
  | batch (batch : Batch)
  | single (arm : ArmId) (reward : Float)
  deriving DecidableEq

namespace Bandit

/-- What an operation adds, if it fits the bandit. -/
def contribution (b : Bandit) : Operation → Except Rejection Contribution
  | .batch batch => b.batchContribution batch
  | .single arm reward => b.singleContribution arm reward

/-- Add a contribution to the totals of a bandit. -/
def accept (c : Contribution) : Procedure Bandit Failure Unit :=
  .focus stats (fun b stats => { b with stats }) .fault (Stats.accumulate c)

/-- Carry out an operation. -/
def operate (op : Operation) : Procedure Bandit Failure Unit := do
  let c ← ((← get).contribution op).mapError Failure.rejected
  accept c

/-- The bandit that an operation leaves behind, and how the operation ended. -/
def step (b : Bandit) (op : Operation) : Bandit × Except Failure Unit :=
  ((operate op).exec b).swap

/-- The bandit after an operation, if it succeeds. -/
def apply (b : Bandit) (op : Operation) : Except Failure Bandit :=
  match b.step op with
  | (b', .ok ()) => .ok b'
  | (_, .error e) => .error e

/-- The bandit after some operations, whether they succeed or fail. -/
def after (b : Bandit) (ops : List Operation) : Bandit :=
  ops.foldl (fun b op => (b.step op).1) b

theorem apply_eq_ok_iff {b b' : Bandit} {op : Operation} :
    b.apply op = .ok b' ↔ b.step op = (b', .ok ()) := by
  unfold apply
  split <;> simp_all

theorem apply_eq_error_of_step {b b' : Bandit} {op : Operation} {e : Failure}
    (h : b.step op = (b', .error e)) : b.apply op = .error e := by simp [apply, h]

theorem after_append (b : Bandit) (ops ops' : List Operation) :
    b.after (ops ++ ops') = (b.after ops).after ops' := by simp [after]

end Bandit

end UpperConfidence
