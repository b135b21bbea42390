/-!
# Vectors of per-arm values

A vector holds one double for each arm, in the order in which the arms were
declared. Arithmetic goes element by element in double precision, and a
vector given in single precision is widened, which changes no value.
-/

namespace UpperConfidence

/-- One double per arm, in the order of the arms. -/
abbrev Values := List Float

namespace Values

/-- The vector of `n` zeros. -/
def zeros (n : Nat) : Values := List.replicate n 0

/-- The vector of `n` ones. -/
def ones (n : Nat) : Values := List.replicate n 1

/-- The sum of two vectors, element by element. -/
def add (xs ys : Values) : Values := List.zipWith (· + ·) xs ys

/-- The difference of two vectors, element by element. -/
def sub (xs ys : Values) : Values := List.zipWith (· - ·) xs ys

/-- The product of two vectors, element by element. -/
def mul (xs ys : Values) : Values := List.zipWith (· * ·) xs ys

/-- The quotient of two vectors, element by element. -/
def div (xs ys : Values) : Values := List.zipWith (· / ·) xs ys

/-- A vector with every element multiplied by `c`. -/
def scale (xs : Values) (c : Float) : Values := xs.map (· * c)

/-- The square root of every element. -/
def sqrt (xs : Values) : Values := xs.map Float.sqrt

/-- Every single-precision value is a double, so widening is exact. -/
def ofSingles (xs : List Float32) : Values := xs.map Float32.toFloat

@[simp] theorem length_zeros (n : Nat) : (zeros n).length = n := by simp [zeros]

@[simp] theorem length_ones (n : Nat) : (ones n).length = n := by simp [ones]

@[simp] theorem length_add (xs ys : Values) :
    (add xs ys).length = min xs.length ys.length := by simp [add]

@[simp] theorem length_sub (xs ys : Values) :
    (sub xs ys).length = min xs.length ys.length := by simp [sub]

@[simp] theorem length_mul (xs ys : Values) :
    (mul xs ys).length = min xs.length ys.length := by simp [mul]

@[simp] theorem length_div (xs ys : Values) :
    (div xs ys).length = min xs.length ys.length := by simp [div]

@[simp] theorem length_scale (xs : Values) (c : Float) : (scale xs c).length = xs.length := by
  simp [scale]

@[simp] theorem length_sqrt (xs : Values) : (sqrt xs).length = xs.length := by simp [sqrt]

end Values

end UpperConfidence
