/-!
# Procedures

A procedure works on a state and may fail on the way. What it has changed until
then stays changed, so the state that it leaves behind is known however it ends.
-/

namespace UpperConfidence

/-- A computation on a state of type `σ` that may fail with an error of type `ε`. -/
abbrev Procedure (σ ε : Type) := ExceptT ε (StateM σ)

namespace Procedure

variable {σ τ ε δ α β : Type}

/-- How a procedure ends that starts in state `s`, and the state it leaves behind. -/
def exec (m : Procedure σ ε α) (s : σ) : Except ε α × σ := m.run.run s

/-- A procedure on a part of the state. The part it leaves behind is put back also when it fails. -/
def focus (get : σ → τ) (put : σ → τ → σ) (cause : δ → ε) (m : Procedure τ δ α) :
    Procedure σ ε α :=
  ExceptT.mk (modifyGet fun s =>
    let (outcome, part) := m.exec (get s)
    (outcome.mapError cause, put s part))

theorem exec_get (s : σ) : (get : Procedure σ ε σ).exec s = (.ok s, s) := rfl

theorem exec_modify (f : σ → σ) (s : σ) :
    (modify f : Procedure σ ε PUnit).exec s = (.ok (), f s) := rfl

theorem exec_liftM (x : Except ε α) (s : σ) : (liftM x : Procedure σ ε α).exec s = (x, s) := by
  cases x <;> rfl

theorem exec_focus (get : σ → τ) (put : σ → τ → σ) (cause : δ → ε) (m : Procedure τ δ α) (s : σ) :
    (focus get put cause m).exec s =
      ((m.exec (get s)).1.mapError cause, put s (m.exec (get s)).2) := rfl

theorem exec_bind (m : Procedure σ ε α) (f : α → Procedure σ ε β) (s : σ) :
    (m >>= f).exec s = match m.exec s with
      | (.ok a, s') => (f a).exec s'
      | (.error e, s') => (.error e, s') := by
  simp only [exec, ExceptT.run_bind, StateT.run_bind]
  rcases m.run.run s with ⟨outcome, s'⟩
  cases outcome <;> rfl

/-- A procedure whose first part succeeds goes on from the state that this part leaves. -/
theorem exec_bind_of_ok {m : Procedure σ ε α} {a : α} {s s' : σ} (h : m.exec s = (.ok a, s'))
    (f : α → Procedure σ ε β) : (m >>= f).exec s = (f a).exec s' := by
  rw [exec_bind, h]

/-- A procedure whose first part fails ends there. -/
theorem exec_bind_of_error {m : Procedure σ ε α} {e : ε} {s s' : σ}
    (h : m.exec s = (.error e, s')) (f : α → Procedure σ ε β) :
    (m >>= f).exec s = (.error e, s') := by
  rw [exec_bind, h]

end Procedure

end UpperConfidence
