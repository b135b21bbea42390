import UpperConfidence.Bandit.Operation
import UpperConfidence.Testbed.Basic

/-!
# Playing a testbed

A bandit with as many arms as the testbed plays it for a number of rounds. In a
round it chooses an arm, the testbed draws the reward of the arm in the same
position, and the bandit takes both as a single observation. A round that fails
ends the run, and the bandit and the words are left as they are at that point.
-/

namespace UpperConfidence

/-- The arm played in one round and its reward. -/
structure Play where
  position : Nat
  reward : Float
  deriving DecidableEq

/-- What a run has brought about so far. -/
structure Progress where
  bandit : Bandit
  /-- The rounds that succeeded, in order. -/
  trace : List Play
  /-- The number of words drawn so far, also by a round that failed. -/
  drawn : Nat

/-- What a run has left behind, and how it ended. -/
structure Run extends Progress where
  outcome : Except Failure Unit

/-- The run that ends like this. -/
def Run.of (result : Except Failure Unit × Progress) : Run := ⟨result.2, result.1⟩

/-- A part of a run. -/
abbrev Playing := Procedure Progress Failure

namespace Playing

variable {α : Type}

/-- Draw from a source, going on after the words drawn before. -/
def draw (source : Source) (s : Sampler α) : Playing α :=
  .focus Progress.drawn (fun p drawn => { p with drawn }) .fault (ReaderT.run s source)

/-- Give an operation to the bandit. -/
def observe (op : Operation) : Playing Unit :=
  .focus Progress.bandit (fun p bandit => { p with bandit }) id (Bandit.operate op)

/-- Note what was played. -/
def record (play : Play) : Playing Unit := modify fun p => { p with trace := p.trace ++ [play] }

theorem exec_draw (source : Source) (s : Sampler α) (p : Progress) :
    (draw source s).exec p = ((s.sample source p.drawn).1.mapError .fault,
      { p with drawn := (s.sample source p.drawn).2 }) := rfl

theorem exec_observe (op : Operation) (p : Progress) :
    (observe op).exec p =
      ((p.bandit.step op).2, { p with bandit := (p.bandit.step op).1 }) := by
  rw [observe, Procedure.exec_focus, Bandit.step]
  rcases (Bandit.operate op).exec p.bandit with ⟨outcome, bandit⟩
  cases outcome <;> rfl

end Playing

namespace Testbed

/-- The position of the arm that a bandit chooses. -/
def choose (fns : Elementary) (b : Bandit) : Except Rejection (ArmId × Nat) := do
  let arm ← b.action fns.ln
  return (arm, ← b.index.position arm)

/-- One round. -/
def round (t : Testbed) (fns : Elementary) (source : Source) : Playing Unit := do
  let (arm, position) ← (choose fns (← get).bandit).mapError Failure.rejected
  let reward ← Playing.draw source (t.pull fns position)
  Playing.observe (.single arm reward)
  Playing.record ⟨position, reward⟩

/-- Some rounds, until one fails. -/
def rounds (t : Testbed) (fns : Elementary) (source : Source) : (steps : Nat) → Playing Unit
  | 0 => return
  | steps + 1 => do
    t.round fns source
    t.rounds fns source steps

/-- Some rounds, if the testbed has as many arms as the bandit. -/
def play (t : Testbed) (fns : Elementary) (source : Source) (steps : Nat) : Playing Unit := do
  (requireLength .testbedArms (← get).bandit.size t.size).mapError Failure.rejected
  t.rounds fns source steps

/-- Let a bandit play a testbed of its size for some rounds. -/
def run (t : Testbed) (fns : Elementary) (source : Source) (steps : Nat) (b : Bandit)
    (drawn : Nat) : Run :=
  .of ((t.play fns source steps).exec ⟨b, [], drawn⟩)

/-- All that a round can do. -/
theorem exec_round (t : Testbed) (fns : Elementary) (source : Source) (p : Progress) :
    (t.round fns source).exec p =
      match choose fns p.bandit with
      | .error e => (.error (.rejected e), p)
      | .ok (arm, position) =>
        match (t.pull fns position).sample source p.drawn with
        | (.error e, drawn) => (.error (.fault e), { p with drawn })
        | (.ok reward, drawn) =>
          match p.bandit.step (.single arm reward) with
          | (bandit, .error e) => (.error e, ⟨bandit, p.trace, drawn⟩)
          | (bandit, .ok ()) => (.ok (), ⟨bandit, p.trace ++ [⟨position, reward⟩], drawn⟩) := by
  rw [round, Procedure.exec_bind_of_ok (Procedure.exec_get p), Procedure.exec_bind,
    Procedure.exec_liftM]
  cases choose fns p.bandit with
  | error e => rfl
  | ok chosen =>
    obtain ⟨arm, position⟩ := chosen
    simp only [mapError_ok, Procedure.exec_bind, Playing.exec_draw]
    rcases (t.pull fns position).sample source p.drawn with ⟨e | reward, drawn⟩
    · rfl
    · simp only [mapError_ok, Playing.exec_observe]
      rcases p.bandit.step (.single arm reward) with ⟨bandit, e | u⟩ <;> rfl

/-- The first of some rounds decides whether there are more. -/
theorem exec_rounds_succ (t : Testbed) (fns : Elementary) (source : Source) (steps : Nat)
    (p : Progress) : (t.rounds fns source (steps + 1)).exec p =
      match (t.round fns source).exec p with
      | (.ok (), p') => (t.rounds fns source steps).exec p'
      | (.error e, p') => (.error e, p') := by
  rw [rounds, Procedure.exec_bind]
  rcases (t.round fns source).exec p with ⟨e | u, p'⟩ <;> rfl

theorem run_of_size {t : Testbed} {fns : Elementary} {source : Source} {b : Bandit}
    (size : b.size = t.size) (steps drawn : Nat) :
    t.run fns source steps b drawn = .of ((t.rounds fns source steps).exec ⟨b, [], drawn⟩) := by
  rw [run, play, Procedure.exec_bind_of_ok (Procedure.exec_get _),
    requireLength_eq_ok_iff.mpr size]
  rfl

/-- A testbed of another size is rejected before anything else happens. -/
theorem run_of_size_ne {t : Testbed} {fns : Elementary} {source : Source} {b : Bandit}
    (size : b.size ≠ t.size) (steps drawn : Nat) :
    t.run fns source steps b drawn =
      ⟨⟨b, [], drawn⟩, .error (.rejected (.shapeMismatch .testbedArms b.size t.size))⟩ := by
  rw [run, play, Procedure.exec_bind_of_ok (Procedure.exec_get _), requireLength_of_ne size]
  rfl

end Testbed

end UpperConfidence
