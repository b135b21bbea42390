import UpperConfidence.Proofs.Double.Integer
import UpperConfidence.Proofs.Values.Addend

/-!
# Sums without rounding

If none of the additions of a sum rounds, then the sum over the lanes and the tail
stands for the sum of what the entries stand for, and their order does not matter.
-/

namespace UpperConfidence

namespace Double

/-- What a double stands for, and zero if it is not finite. -/
def amount (x : Float) : ℚ := (value x).getD 0

/-- The sum of two finite doubles is finite and not rounded. -/
def AddsExactly (x y : Float) : Prop :=
  ∃ v ∈ value x, ∃ w ∈ value y, value (x + y) = some (v + w)

instance (x y : Float) : Decidable (AddsExactly x y) :=
  inferInstanceAs (Decidable (∃ v ∈ value x, ∃ w ∈ value y, value (x + y) = some (v + w)))

theorem amount_of_value {x : Float} {v : ℚ} (h : value x = some v) : amount x = v := by
  rw [amount, h, Option.getD_some]

theorem amount_zero : amount 0 = 0 := amount_of_value value_zero

theorem amount_nonneg {x : Float} (h : 0 ≤ x) : 0 ≤ amount x := by
  cases hx : value x with
  | none => rw [amount, hx, Option.getD_none]
  | some v =>
    rw [amount_of_value hx]
    exact (le_iff_value value_zero hx).mp h

theorem amount_of_sameAddend {x y : Float} (h : SameAddend x y) : amount x = amount y := by
  have sum : value (0 + x) = value (0 + y) := congrArg value (h 0 zero_ne_negZero)
  rw [(value_add_zero x value_zero).1, (value_add_zero y value_zero).1] at sum
  rw [amount, amount, sum]

namespace AddsExactly

variable {x y : Float} (h : AddsExactly x y)
include h

theorem value_add : value (x + y) = some (amount x + amount y) := by
  obtain ⟨v, hx, w, hy, sum⟩ := h
  rw [sum, amount_of_value hx, amount_of_value hy]

theorem amount_add : amount (x + y) = amount x + amount y := amount_of_value h.value_add

end AddsExactly

end Double

open Double

namespace Lanes

/-- No addition rounds when the running sums are added up. -/
structure CombinesExactly (l : Lanes) : Prop where
  p04 : AddsExactly l.p0 l.p4
  p15 : AddsExactly l.p1 l.p5
  p26 : AddsExactly l.p2 l.p6
  p37 : AddsExactly l.p3 l.p7
  first : AddsExactly 0 (l.p0 + l.p4)
  second : AddsExactly (0 + (l.p0 + l.p4)) (l.p1 + l.p5)
  third : AddsExactly ((0 + (l.p0 + l.p4)) + (l.p1 + l.p5)) (l.p2 + l.p6)
  fourth : AddsExactly (((0 + (l.p0 + l.p4)) + (l.p1 + l.p5)) + (l.p2 + l.p6)) (l.p3 + l.p7)

/-- What the running sums stand for together. -/
def amount (l : Lanes) : ℚ :=
  Double.amount l.p0 + Double.amount l.p1 + Double.amount l.p2 + Double.amount l.p3 +
    Double.amount l.p4 + Double.amount l.p5 + Double.amount l.p6 + Double.amount l.p7

theorem amount_empty : empty.amount = 0 := by
  simp [amount, empty, amount_zero]

theorem value_combine {l : Lanes} (h : l.CombinesExactly) : value l.combine = some l.amount := by
  rw [combine, h.fourth.value_add, h.third.amount_add, h.second.amount_add, h.first.amount_add,
    h.p04.amount_add, h.p15.amount_add, h.p26.amount_add, h.p37.amount_add, amount_zero, amount]
  congr 1
  ring

end Lanes

namespace Values

/-- What the entries of a vector stand for together. -/
def amount (xs : Values) : ℚ := (xs.map Double.amount).sum

@[simp] theorem amount_nil : amount [] = 0 := rfl

@[simp] theorem amount_cons (x : Float) (xs : Values) :
    amount (x :: xs) = Double.amount x + amount xs := List.sum_cons

theorem amount_zeros (n : ℕ) : amount (zeros n) = 0 := by
  simp [amount, zeros, amount_zero]

theorem amount_congr {xs ys : Values} (h : SameAddends xs ys) : amount xs = amount ys := by
  induction h <;> grind [amount_cons, amount_of_sameAddend]

/-- No addition rounds when the entries are added to `x` one by one. -/
def FoldsExactly (x : Float) : Values → Prop
  | [] => True
  | y :: ys => AddsExactly x y ∧ FoldsExactly (x + y) ys

/-- No addition rounds in the sum of `xs` when the groups before it have left the running sums
`l`. -/
def SumsExactlyFrom (l : Lanes) : Values → Prop
  | x0 :: x1 :: x2 :: x3 :: x4 :: x5 :: x6 :: x7 :: rest =>
    AddsExactly l.p0 x0 ∧ AddsExactly l.p1 x1 ∧ AddsExactly l.p2 x2 ∧ AddsExactly l.p3 x3 ∧
      AddsExactly l.p4 x4 ∧ AddsExactly l.p5 x5 ∧ AddsExactly l.p6 x6 ∧ AddsExactly l.p7 x7 ∧
      SumsExactlyFrom ⟨l.p0 + x0, l.p1 + x1, l.p2 + x2, l.p3 + x3,
        l.p4 + x4, l.p5 + x5, l.p6 + x6, l.p7 + x7⟩ rest
  | rest => l.CombinesExactly ∧ FoldsExactly l.combine rest

/-- No addition rounds in the sum of a vector. -/
def SumsExactly (xs : Values) : Prop := SumsExactlyFrom .empty xs

theorem value_foldl {x : Float} {v : ℚ} {ys : Values} (hx : value x = some v)
    (h : FoldsExactly x ys) : value (ys.foldl (· + ·) x) = some (v + amount ys) := by
  induction ys generalizing x v with
  | nil => simpa using hx
  | cons y ys ih =>
    obtain ⟨first, rest⟩ := h
    have tail := ih first.value_add rest
    rw [List.foldl_cons, tail, amount_cons, amount_of_value hx, add_assoc]

theorem value_sumFrom {l : Lanes} {xs : Values} (h : SumsExactlyFrom l xs) :
    value (sumFrom l xs) = some (l.amount + amount xs) := by
  fun_induction sumFrom l xs with
  | case1 l x0 x1 x2 x3 x4 x5 x6 x7 rest ih =>
    obtain ⟨h0, h1, h2, h3, h4, h5, h6, h7, later⟩ := h
    rw [ih later]
    simp only [Lanes.amount, amount_cons, h0.amount_add, h1.amount_add, h2.amount_add,
      h3.amount_add, h4.amount_add, h5.amount_add, h6.amount_add, h7.amount_add]
    congr 1
    ring
  | case2 l rest short =>
    unfold SumsExactlyFrom at h
    split at h
    · exact (short _ _ _ _ _ _ _ _ _ rfl).elim
    · exact value_foldl (Lanes.value_combine h.1) h.2

/-- The sum over the lanes and the tail is the sum of what the entries stand for. -/
theorem value_laneSum {xs : Values} (h : xs.SumsExactly) : value xs.laneSum = some xs.amount := by
  rw [laneSum, value_sumFrom h, Lanes.amount_empty, zero_add]

/-- Vectors that are added without rounding amount to the sum of what they amount to. -/
theorem amount_add {xs ys : Values} (h : List.Forall₂ AddsExactly xs ys) :
    amount (xs.add ys) = amount xs + amount ys := by
  induction h with
  | nil => simp [add]
  | cons head _ ih =>
    simp only [add, List.zipWith_cons_cons, amount_cons, head.amount_add] at ih ⊢
    rw [ih]
    ring

theorem isFinite_of_mem_add {xs ys : Values} (h : List.Forall₂ AddsExactly xs ys) {z : Float}
    (mem : z ∈ xs.add ys) : z.isFinite = true := by
  induction h with
  | nil => cases mem
  | cons head _ ih =>
    obtain rfl | later := List.mem_cons.mp mem
    · exact isFinite_of_value head.value_add
    · exact ih later

end Values

end UpperConfidence
