/-!
# Elementary functions

Scores take a natural logarithm, and the tail of the normal distribution needs
an exponential besides. Neither is correctly rounded on every machine, so both
are parameters: a statement about scores can name the laws of the logarithm
that it needs. `Elementary.native` is the pair that the machine offers.
-/

namespace UpperConfidence

/-- A natural logarithm and an exponential on doubles. -/
structure Elementary where
  ln : Float → Float
  exp : Float → Float

/-- The functions of the machine's own library. -/
def Elementary.native : Elementary := ⟨Float.log, Float.exp⟩

end UpperConfidence
