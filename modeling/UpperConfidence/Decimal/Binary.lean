/-!
# The exact value of a double

A finite double is a sign and a natural number times a power of two. The parts
are read off the 64 bits: one for the sign, eleven for the exponent, 52 for the
fraction. Exact decimal output starts from here.
-/

namespace UpperConfidence.Decimal

/-- What the bits of a double stand for. -/
inductive Binary where
  | notANumber
  | infinite (negative : Bool)
  /-- The value is `mantissa * 2 ^ exponent`, negated if `negative`. -/
  | finite (negative : Bool) (mantissa : Nat) (exponent : Int)
  deriving DecidableEq, Repr

/-- The least exponent, which subnormal numbers share. -/
def Binary.leastExponent : Int := -1074

/-- The bit in front of the 52 bits of the fraction, which all but subnormal numbers have. -/
def Binary.leadingBit : Nat := 0x10000000000000

/-- Read the sign, the mantissa and the exponent off the bits. -/
def Binary.ofFloat (x : Float) : Binary :=
  let bits := x.toBits
  let negative := bits >>> 63 = 1
  let fraction := (bits &&& 0xfffffffffffff).toNat
  match (bits >>> 52 &&& 0x7ff).toNat with
  | 0 => .finite negative fraction leastExponent
  | 2047 => if fraction = 0 then .infinite negative else .notANumber
  | e + 1 => .finite negative (leadingBit + fraction) (leastExponent + e)

/-- The sign in front of a decimal. -/
def signText (negative : Bool) : String := if negative then "-" else ""

/-- The decimal of `digits` units of `10 ^ -places`, with exactly that many places. -/
def pointed (digits places : Nat) : String :=
  let cs := Nat.toDigits 10 digits
  let cs := List.replicate (places + 1 - cs.length) '0' ++ cs
  if places = 0 then String.ofList cs
  else
    let (whole, fraction) := cs.splitAt (cs.length - places)
    String.ofList (whole ++ '.' :: fraction)

/-- A double as text, when the magnitude of finite ones is written by `digits`. -/
def render (digits : Nat → Int → String) (x : Float) : String :=
  match Binary.ofFloat x with
  | .notANumber => "NaN"
  | .infinite negative => signText negative ++ "inf"
  | .finite negative mantissa exponent => signText negative ++ digits mantissa exponent

end UpperConfidence.Decimal
