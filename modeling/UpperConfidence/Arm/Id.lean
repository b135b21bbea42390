/-!
# Arm identifiers

An arm is named by a signed integer of 64 bits or by a text. The two never
coincide: the integer `1` and the text `1` are different arms, although they
print alike. Integers come before texts, and texts are ordered by code point.
-/

namespace UpperConfidence

/-- An opaque name of an arm. -/
inductive ArmId where
  | int (value : Int64)
  | name (text : String)
  deriving DecidableEq, Repr, Inhabited

namespace ArmId

/-- The identifier of an integer of any width, reduced to 64 signed bits. -/
def ofInt (n : Int) : ArmId := .int (Int64.ofInt n)

/-- The printed form, which does not tell an integer from its text. -/
def text : ArmId → String
  | .int value => toString value.toInt
  | .name text => text

/-- Integers by value, then texts by code point. -/
def le : ArmId → ArmId → Bool
  | .int a, .int b => a ≤ b
  | .int _, .name _ => true
  | .name _, .int _ => false
  | .name a, .name b => !decide (b < a)

/-- The identifiers in order; equal ones keep their places. -/
def sort (ids : List ArmId) : List ArmId := ids.mergeSort le

/-- The different identifiers of a list, each once. -/
def distinct (ids : List ArmId) : List ArmId := ids.eraseDups

theorem int_ne_name (value : Int64) (text : String) : ArmId.int value ≠ .name text := by
  intro h
  cases h

theorem text_name (text : String) : (ArmId.name text).text = text := rfl

end ArmId

/-- Identifiers in brackets, separated by commas. -/
def ArmId.listText (ids : List ArmId) : String :=
  "[" ++ ", ".intercalate (ids.map text) ++ "]"

end UpperConfidence
