import UpperConfidence.Elementary
import UpperConfidence.Random.Normal.Table
import UpperConfidence.Random.Uniform

/-!
# Standard normal draws

One word chooses a piece of the area under the density and a place in it, to
either side of zero. A place left of the next edge lies below the density and
is accepted at once. Otherwise a second word decides whether the point lies
below the density. In the lowest piece a place beyond the second edge stands
for the tail, which is sampled on its own by rejection from two exponentials.
-/

namespace UpperConfidence

namespace Normal

/-- A distance beyond the start of the tail, if the attempt is accepted. -/
def tailAttempt (fns : Elementary) : Sampler (Option Float) := do
  let a := fns.ln (← Sampler.openUniform) / tailStart
  let b := fns.ln (← Sampler.openUniform)
  return if -2 * b < a * a then none else some a

/-- A point of the tail to the left or to the right. -/
def tail (fns : Elementary) (left : Bool) : Sampler Float := do
  let a ← Sampler.untilDecided (tailAttempt fns)
  return if left then a - tailStart else tailStart - a

/-- A point below the density, if the attempt is accepted. -/
def attempt (fns : Elementary) : Sampler (Option Float) := do
  let word ← Sampler.word
  let piece : Fin 256 := .ofNat 256 word.toNat
  let u := nextBinade word - 3
  let x := u * edge piece.castSucc
  if x.abs < edge piece.succ then return some x
  if piece = 0 then return some (← tail fns (u < 0))
  let lower := density piece.succ
  let y := lower + (density piece.castSucc - lower) * (← Sampler.uniform)
  return if y < fns.exp (-x * x / 2) then some x else none

end Normal

/-- A draw from the standard normal distribution. -/
def Sampler.normal (fns : Elementary) : Sampler Float :=
  Sampler.untilDecided (Normal.attempt fns)

end UpperConfidence
