import UpperConfidence.Values.Basic

/-!
# Masking by arithmetic

A masked value is replaced without a branch: the old value is multiplied by
zero or one and the replacement is added. The old value therefore still shows
where it is infinite or not a number, since zero times such a value is not a
number, and a negative zero that is kept becomes a positive one.
-/

namespace UpperConfidence

/-- Replace `x` by `fill` where `masked` holds. -/
def maskFill (masked : Bool) (fill x : Float) : Float :=
  if masked then x * 0 + fill else x * 1 + 0

/-- Replace the elements of `xs` where `mask` holds by `fill`. -/
def Values.maskFill (xs : Values) (mask : List Bool) (fill : Float) : Values :=
  List.zipWith (fun masked x => UpperConfidence.maskFill masked fill x) mask xs

@[simp] theorem Values.length_maskFill (xs : Values) (mask : List Bool) (fill : Float) :
    (xs.maskFill mask fill).length = min mask.length xs.length := by
  simp [Values.maskFill]

theorem maskFill_true (fill x : Float) : maskFill true fill x = x * 0 + fill := rfl

theorem maskFill_false (fill x : Float) : maskFill false fill x = x * 1 + 0 := rfl

end UpperConfidence
