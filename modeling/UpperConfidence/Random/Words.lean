/-!
# Random words

All randomness comes from a stream of words of 64 bits, read one after the
other. A stream can start with given words and go on with those of a mixing
generator: its state grows by a fixed odd number at each word, and the word is
the state with its bits mixed.

Sampling by rejection tries again until an attempt decides, and there are streams
on which none ever does. So a source of randomness has a stream together with the
number of attempts that one draw may take. Nothing is known of that number: what
is decided within it would be the same with more attempts.
-/

namespace UpperConfidence

/-- An endless sequence of random words. -/
abbrev WordStream := Nat → UInt64

/-- Mix the bits of a state. -/
def mix (state : UInt64) : UInt64 :=
  let z := (state ^^^ (state >>> 30)) * 0xbf58476d1ce4e5b9
  let z := (z ^^^ (z >>> 27)) * 0x94d049bb133111eb
  z ^^^ (z >>> 31)

namespace WordStream

/-- The words of the mixing generator. The state before the first is `seed`. -/
def ofSeed (seed : UInt64) : WordStream :=
  fun n => mix (seed + (UInt64.ofNat n + 1) * 0x9e3779b97f4a7c15)

/-- The given words and then another stream. -/
def append (words : List UInt64) (rest : WordStream) : WordStream :=
  fun n => words.getD n (rest (n - words.length))

theorem append_nil (rest : WordStream) : append [] rest = rest := rfl

theorem append_cons_zero (word : UInt64) (words : List UInt64) (rest : WordStream) :
    append (word :: words) rest 0 = word := rfl

theorem append_cons_succ (word : UInt64) (words : List UInt64) (rest : WordStream) (n : Nat) :
    append (word :: words) rest (n + 1) = append words rest n := by
  simp [append]

end WordStream

/-- What draws are made from. -/
structure Source where
  words : WordStream
  /-- How many attempts sampling by rejection may take for one draw. -/
  attempts : Nat

end UpperConfidence
