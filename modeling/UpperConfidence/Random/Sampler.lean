import UpperConfidence.Failure
import UpperConfidence.Procedure
import UpperConfidence.Random.Words

/-!
# Samplers

A sampler reads words of a stream from its present place on and yields a value
or a fault. Either way it is known how many words have been drawn. Sampling by
rejection repeats an attempt until one decides, as often as the source of the
words allows.
-/

namespace UpperConfidence

/-- A random value that depends on the words drawn for it. -/
abbrev Sampler := ReaderT Source (Procedure Nat Fault)

namespace Sampler

/-- Sample from a source when `drawn` words have been drawn before. The second
part of the result is the number of words drawn after it. -/
def sample (s : Sampler α) (source : Source) (drawn : Nat) : Except Fault α × Nat :=
  (ReaderT.run s source).exec drawn

/-- The next word. -/
def word : Sampler UInt64 := do
  let drawn ← get
  set (drawn + 1)
  return (← read).words drawn

/-- Repeat an attempt, `limit` times at most, until it decides. -/
def retry (attempt : Sampler (Option α)) : (limit : Nat) → Sampler α
  | 0 => throw .undecided
  | limit + 1 => do
    match ← attempt with
    | some a => return a
    | none => retry attempt limit

/-- Repeat an attempt until it decides, or the attempts of the source are used up. -/
def untilDecided (attempt : Sampler (Option α)) : Sampler α := do
  retry attempt (← read).attempts

theorem sample_word (source : Source) (drawn : Nat) :
    word.sample source drawn = (.ok (source.words drawn), drawn + 1) := rfl

theorem sample_pure (a : α) (source : Source) (drawn : Nat) :
    (pure a : Sampler α).sample source drawn = (.ok a, drawn) := rfl

theorem sample_throw (fault : Fault) (source : Source) (drawn : Nat) :
    (throw fault : Sampler α).sample source drawn = (.error fault, drawn) := rfl

theorem sample_untilDecided (attempt : Sampler (Option α)) (source : Source) (drawn : Nat) :
    (untilDecided attempt).sample source drawn =
      (retry attempt source.attempts).sample source drawn := rfl

theorem sample_bind {α β : Type} (s : Sampler α) (f : α → Sampler β) (source : Source)
    (drawn : Nat) : (s >>= f).sample source drawn =
      match s.sample source drawn with
      | (.ok a, drawn') => (f a).sample source drawn'
      | (.error fault, drawn') => (.error fault, drawn') := by
  simp only [sample, ReaderT.run_bind, Procedure.exec_bind]
  rcases (ReaderT.run s source).exec drawn with ⟨outcome, drawn'⟩
  cases outcome <;> rfl

end Sampler

end UpperConfidence
