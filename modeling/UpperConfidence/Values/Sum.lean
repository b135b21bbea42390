import UpperConfidence.Values.Basic

/-!
# The sum of a vector

Addition of doubles is not associative, so the order of a sum is part of its
meaning. Full groups of eight elements feed eight running sums, one per
position in the group. The running sums are then paired, first with fifth and
so on, and added up from zero. The elements after the last full group, at most
seven, come last and one by one.
-/

namespace UpperConfidence

/-- Eight running sums, the first for positions 0, 8, 16 and so on. -/
structure Lanes where
  p0 : Float
  p1 : Float
  p2 : Float
  p3 : Float
  p4 : Float
  p5 : Float
  p6 : Float
  p7 : Float

namespace Lanes

/-- Running sums before the first group. -/
def empty : Lanes := ⟨0, 0, 0, 0, 0, 0, 0, 0⟩

/-- The running sums paired at distance four and added from zero. -/
def combine (l : Lanes) : Float :=
  (((0 + (l.p0 + l.p4)) + (l.p1 + l.p5)) + (l.p2 + l.p6)) + (l.p3 + l.p7)

end Lanes

namespace Values

/-- The sum of `xs` when the groups before it have left the running sums `l`. -/
def sumFrom (l : Lanes) : Values → Float
  | x0 :: x1 :: x2 :: x3 :: x4 :: x5 :: x6 :: x7 :: rest =>
    sumFrom ⟨l.p0 + x0, l.p1 + x1, l.p2 + x2, l.p3 + x3,
      l.p4 + x4, l.p5 + x5, l.p6 + x6, l.p7 + x7⟩ rest
  | rest => rest.foldl (· + ·) l.combine

/-- The sum of a vector over eight lanes and a tail. -/
def laneSum (xs : Values) : Float := sumFrom .empty xs

end Values

end UpperConfidence
