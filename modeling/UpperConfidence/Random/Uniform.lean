import UpperConfidence.Random.Sampler

/-!
# Uniform and Bernoulli draws

A word gives a double by writing its high bits into the fraction of a double of
known exponent, or by scaling its 53 high bits. A Bernoulli draw compares a
word with the scaled probability; certainty draws no word.
-/

namespace UpperConfidence

/-- The double in `[1, 2)` whose fraction holds the 52 high bits of a word. -/
def unitBinade (word : UInt64) : Float := .ofBits ((word >>> 12) ||| 0x3ff0000000000000)

/-- The double in `[2, 4)` whose fraction holds the 52 high bits of a word. -/
def nextBinade (word : UInt64) : Float := .ofBits ((word >>> 12) ||| 0x4000000000000000)

/-- The greatest double below one. -/
def belowOne : Float := .ofBits 0x3fefffffffffffff

namespace Sampler

/-- A multiple of `2 ^ -53` in `[0, 1)`. -/
def uniform : Sampler Float := do
  return ((← word) >>> 11).toFloat * .ofBits 0x3ca0000000000000

/-- A number strictly between zero and one. -/
def openUniform : Sampler Float := do
  return unitBinade (← word) - belowOne

/-- Whether an event of probability `p` occurs. -/
def bernoulli (p : Float) : Sampler Bool := do
  if p == 1 then return true
  if 0 ≤ p ∧ p < 1 then
    let threshold := (p * .ofBits 0x43f0000000000000).toUInt64
    return (← word) < threshold
  throw .invalidProbability

end Sampler

end UpperConfidence
