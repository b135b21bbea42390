import UpperConfidence.Failure
import UpperConfidence.Values.Basic

/-!
# Placing values at positions

Values for some of the arms are brought into a vector for all of them: each is
added to the zero at its position, in order, and the other positions stay
zero. Adding to zero keeps every value but negative zero, which becomes
positive.
-/

namespace UpperConfidence.Values

/-- A vector of `n` zeros to which each value is added at its position. -/
def scatter (n : Nat) (placed : List (Float × Nat)) : Values :=
  placed.foldl (fun xs (x, i) => xs.modify i (· + x)) (zeros n)

/-- Place `xs` at `positions` in a vector of length `n`, one position for each
value and all of them below `n`. -/
def place (xs : Values) (positions : List Nat) (n : Nat) : Except Rejection Values := do
  requireLength .positions xs.length positions.length
  match positions.find? (n ≤ ·) with
  | some i => throw (.indexOutOfRange i n)
  | none => return scatter n (xs.zip positions)

theorem scatter_nil (n : Nat) : scatter n [] = zeros n := rfl

@[simp] theorem length_scatter (n : Nat) (placed : List (Float × Nat)) :
    (scatter n placed).length = n := by
  suffices h : ∀ xs : Values,
      (placed.foldl (fun xs (x, i) => xs.modify i (· + x)) xs).length = xs.length by
    simp [scatter, h]
  induction placed with
  | nil => simp
  | cons p ps ih => intro xs; simp [ih]

end UpperConfidence.Values
