import Mathlib
import UpperConfidence.Testbed.Run

/-!
# Histories of a bandit

What can be done with a bandit is to give it observations and to let it play a
testbed. Either may fail on the way, and the next activity goes on with whatever
is left. A testbed run comes to single observations, so a history is no more
than a sequence of operations.
-/

namespace UpperConfidence

/-- Something that is done with a bandit. -/
inductive Activity where
  | operation (op : Operation)
  /-- Some rounds of a testbed, with random words from position `drawn` on. -/
  | play (t : Testbed) (fns : Elementary) (source : Source) (steps drawn : Nat)

namespace Bandit

/-- The bandit that an activity leaves behind. -/
def perform (b : Bandit) : Activity → Bandit
  | .operation op => (b.step op).1
  | .play t fns source steps drawn => (t.run fns source steps b drawn).bandit

/-- The bandit that some activities leave behind, whether they succeed or fail. -/
def history (b : Bandit) (activities : List Activity) : Bandit := activities.foldl perform b

/-- A bandit that a new one can become. -/
def Reachable (b : Bandit) : Prop :=
  ∃ config start activities, create config = .ok start ∧ start.history activities = b

end Bandit

namespace Testbed

variable {t : Testbed} {fns : Elementary} {source : Source}

/-- A round gives the bandit one observation at most. -/
theorem exists_after_eq_round (p : Progress) :
    ∃ ops, p.bandit.after ops = ((t.round fns source).exec p).2.bandit := by
  rw [exec_round]
  split
  · exact ⟨[], rfl⟩
  · rename_i arm position _
    split
    · exact ⟨[], rfl⟩
    · rename_i reward drawn _
      refine ⟨[.single arm reward], ?_⟩
      rw [Bandit.after, List.foldl_cons, List.foldl_nil]
      split <;> simp [*]

theorem exists_after_eq_rounds (steps : Nat) (p : Progress) :
    ∃ ops, p.bandit.after ops = ((t.rounds fns source steps).exec p).2.bandit := by
  induction steps generalizing p with
  | zero => exact ⟨[], rfl⟩
  | succ steps ih =>
    obtain ⟨first, hfirst⟩ : ∃ ops, p.bandit.after ops = ((t.round fns source).exec p).2.bandit :=
      exists_after_eq_round p
    rw [exec_rounds_succ]
    rcases played : (t.round fns source).exec p with ⟨e | u, p'⟩
    · rw [played] at hfirst
      exact ⟨first, hfirst⟩
    · rw [played] at hfirst
      obtain ⟨rest, hrest⟩ := ih p'
      refine ⟨first ++ rest, ?_⟩
      rw [Bandit.after_append, hfirst]
      exact hrest

theorem exists_after_eq_run (steps : Nat) (b : Bandit) (drawn : Nat) :
    ∃ ops, b.after ops = (t.run fns source steps b drawn).bandit := by
  by_cases size : b.size = t.size
  · rw [run_of_size size]
    exact exists_after_eq_rounds steps ⟨b, [], drawn⟩
  · rw [run_of_size_ne size]
    exact ⟨[], rfl⟩

end Testbed

namespace Bandit

/-- A history is a sequence of operations. -/
theorem exists_after_eq_history (b : Bandit) (activities : List Activity) :
    ∃ ops, b.after ops = b.history activities := by
  induction activities generalizing b with
  | nil => exact ⟨[], rfl⟩
  | cons activity activities ih =>
    obtain ⟨first, hfirst⟩ : ∃ ops, b.after ops = b.perform activity := by
      cases activity with
      | operation op => exact ⟨[op], rfl⟩
      | play t fns source steps drawn => exact Testbed.exists_after_eq_run steps b drawn
    obtain ⟨rest, hrest⟩ := ih (b.perform activity)
    refine ⟨first ++ rest, ?_⟩
    rw [after_append, hfirst, hrest]
    rfl

/-- What a step keeps, a history keeps. -/
theorem history_induction {P : Bandit → Prop} {b : Bandit} (start : P b)
    (step : ∀ b op, P b → P (b.step op).1) (activities : List Activity) :
    P (b.history activities) := by
  obtain ⟨ops, eq⟩ := b.exists_after_eq_history activities
  rw [← eq]
  clear eq
  induction ops generalizing b with
  | nil => exact start
  | cons op ops ih => exact ih (step b op start)

end Bandit

end UpperConfidence
