import UpperConfidence.Decimal.Binary

/-!
# The shortest decimal that reads back

Each double is the nearest one to every number of an interval around it. The
interval reaches half way to the two neighbours, and its ends belong to it when
the mantissa is even, since a tie between two doubles goes to the even one. Of
the decimals in the interval those with the fewest digits are the shortest, and
of them the one nearest to the double is written, in full and without an
exponent.

For each number of digits only the two decimals next to the value have to be
tried: if any decimal of that many digits lies in the interval, one of them
does. Seventeen digits always suffice.
-/

namespace UpperConfidence.Decimal

/-- The numbers that round to a double, with bounds in quarters of its binary unit. -/
structure Interval where
  lower : Nat
  upper : Nat
  closed : Bool

namespace Interval

/-- The interval of `mantissa * 2 ^ exponent`. Below a power of two the next
double is only half as far away as above it. -/
def around (mantissa : Nat) (exponent : Int) : Interval :=
  let narrow := mantissa = Binary.leadingBit ∧ Binary.leastExponent < exponent
  { lower := 4 * mantissa - if narrow then 1 else 2
    upper := 4 * mantissa + 2
    closed := mantissa % 2 = 0 }

/-- Whether `a` lies in the interval, when a quarter of the binary unit is `quarter`. -/
def holds (i : Interval) (quarter a : Nat) : Bool :=
  if i.closed then i.lower * quarter ≤ a && a ≤ i.upper * quarter
  else i.lower * quarter < a && a < i.upper * quarter

end Interval

/-- The number `digits * 10 ^ exponent`. -/
structure Scaled where
  digits : Nat
  exponent : Int

namespace Scaled

/-- The same number without its last digit, if that is zero. -/
def trim (s : Scaled) : Scaled :=
  if s.digits % 10 = 0 then ⟨s.digits / 10, s.exponent + 1⟩ else s

/-- The number in full. -/
def text (s : Scaled) : String :=
  pointed (s.digits * Nat.pow 10 s.exponent.toNat) (-s.exponent).toNat

end Scaled

/-- The exponent of the first decimal digit of `mantissa * 2 ^ exponent`. The
least positive double exceeds `10 ^ -324`, so after scaling by `10 ^ 324` the
integer part has that digit. -/
def leadingExponent (mantissa : Nat) (exponent : Int) : Int :=
  let lifted := mantissa * Nat.pow 2 exponent.toNat * Nat.pow 10 324 / Nat.pow 2 (-exponent).toNat
  (Nat.toDigits 10 lifted).length - 1 - 324

/-- The multiple of `10 ^ unit` that lies in the interval of the value
`mantissa * 2 ^ exponent` and is nearest to it, the greater of two equally near
ones. -/
def nearestMultiple (mantissa : Nat) (exponent unit : Int) : Option Scaled :=
  let interval := Interval.around mantissa exponent
  let quarter := Nat.pow 2 (exponent - 2).toNat * Nat.pow 10 (-unit).toNat
  let step := Nat.pow 10 unit.toNat * Nat.pow 2 (2 - exponent).toNat
  let value := 4 * mantissa * quarter
  let below := value / step
  let above := below + 1
  let belowHolds := interval.holds quarter (below * step)
  let aboveHolds := interval.holds quarter (above * step)
  if belowHolds && (!aboveHolds || value - below * step < above * step - value) then
    some ⟨below, unit⟩
  else if aboveHolds then some ⟨above, unit⟩
  else none

/-- The shortest decimal of a positive value, found on the coarsest grid that has one. -/
def shortestScaled (mantissa : Nat) (exponent : Int) : Scaled :=
  let leading := leadingExponent mantissa exponent
  let found := (List.range 17).findSome? fun (n : Nat) =>
    nearestMultiple mantissa exponent (leading - n)
  (found.getD ⟨0, 0⟩).trim

/-- A double in the fewest digits that read back, a whole number without a point. -/
def shortest (x : Float) : String :=
  render (fun mantissa exponent =>
    if mantissa = 0 then "0" else (shortestScaled mantissa exponent).text) x

end UpperConfidence.Decimal
