import UpperConfidence.Proofs.Double.Arithmetic
import UpperConfidence.Values.Sum

/-!
# Equal addends

Totals and lanes start at zero and grow by additions only, so none of them is
ever a negative zero. What is added to them may therefore differ in the sign of
a zero without any effect. Vectors that differ in nothing else are the same
contribution: they leave the same totals and have the same sum.
-/

namespace UpperConfidence

open Double

/-- Two values that add the same to everything but a negative zero. -/
def SameAddend (x y : Float) : Prop := ∀ a, a ≠ negZero → a + x = a + y

theorem SameAddend.refl (x : Float) : SameAddend x x := fun _ _ => rfl

/-- A value that was added to a zero first adds the same. -/
theorem sameAddend_zero_add (x : Float) : SameAddend (0 + x) x := fun _ ha => add_zero_add ha x

namespace Lanes

/-- No running sum is a negative zero. -/
structure Proper (l : Lanes) : Prop where
  p0 : l.p0 ≠ negZero
  p1 : l.p1 ≠ negZero
  p2 : l.p2 ≠ negZero
  p3 : l.p3 ≠ negZero
  p4 : l.p4 ≠ negZero
  p5 : l.p5 ≠ negZero
  p6 : l.p6 ≠ negZero
  p7 : l.p7 ≠ negZero

theorem proper_empty : empty.Proper := by
  constructor <;> exact zero_ne_negZero

theorem combine_ne_negZero (l : Lanes) : l.combine ≠ negZero :=
  add_ne_negZero (add_ne_negZero (add_ne_negZero (add_ne_negZero zero_ne_negZero _) _) _) _

end Lanes

namespace Values

/-- No entry is a negative zero. -/
def Proper (xs : Values) : Prop := ∀ x ∈ xs, x ≠ negZero

theorem proper_zeros (n : Nat) : Proper (zeros n) := by
  intro x hx
  rw [List.eq_of_mem_replicate hx]
  exact zero_ne_negZero

theorem Proper.add {xs : Values} (h : xs.Proper) (ys : Values) : (xs.add ys).Proper := by
  intro z hz
  obtain ⟨i, hi, rfl⟩ := List.mem_iff_getElem.mp hz
  simp only [Values.add, List.getElem_zipWith]
  exact add_ne_negZero (h _ (List.getElem_mem _)) _

/-- Vectors whose entries add the same. -/
abbrev SameAddends : Values → Values → Prop := List.Forall₂ SameAddend

theorem SameAddends.refl (xs : Values) : SameAddends xs xs :=
  List.forall₂_same.mpr fun x _ => .refl x

theorem add_congr {xs ys zs : Values} (proper : xs.Proper) (h : SameAddends ys zs) :
    xs.add ys = xs.add zs := by
  induction h generalizing xs with
  | nil => rfl
  | cons hyz _ ih =>
    cases xs with
    | nil => rfl
    | cons x xs =>
      have head := hyz x (proper x (by simp))
      have proper' : Proper xs := fun a ha => proper a (by simp [ha])
      have tail := ih proper'
      simp only [Values.add, List.zipWith_cons_cons] at tail ⊢
      rw [head, tail]

/-! ## Sums -/

theorem foldl_add_congr {ys zs : Values} (h : SameAddends ys zs) {a : Float} (ha : a ≠ negZero) :
    ys.foldl (· + ·) a = zs.foldl (· + ·) a := by
  induction h generalizing a with
  | nil => rfl
  | cons hyz _ ih =>
    rw [List.foldl_cons, List.foldl_cons, hyz a ha]
    exact ih (add_ne_negZero ha _)

theorem sumFrom_congr {l : Lanes} (proper : l.Proper) {ys zs : Values} (h : SameAddends ys zs) :
    sumFrom l ys = sumFrom l zs := by
  fun_induction sumFrom l ys generalizing zs with
  | case1 l y0 y1 y2 y3 y4 y5 y6 y7 ys ih =>
    match zs, h with
    | _, .cons h0 (.cons h1 (.cons h2 (.cons h3 (.cons h4 (.cons h5 (.cons h6 (.cons h7 h))))))) =>
      obtain ⟨p0, p1, p2, p3, p4, p5, p6, p7⟩ := proper
      rw [sumFrom, ← h0 _ p0, ← h1 _ p1, ← h2 _ p2, ← h3 _ p3, ← h4 _ p4, ← h5 _ p5,
        ← h6 _ p6, ← h7 _ p7]
      refine ih ?_ h
      constructor <;> exact add_ne_negZero (by assumption) _
  | case2 l ys short =>
    unfold sumFrom
    split
    · match ys, h with
      | _, .cons _ (.cons _ (.cons _ (.cons _ (.cons _ (.cons _ (.cons _ (.cons _ _))))))) =>
        exact (short _ _ _ _ _ _ _ _ _ rfl).elim
    · exact foldl_add_congr h l.combine_ne_negZero

theorem laneSum_congr {ys zs : Values} (h : SameAddends ys zs) : ys.laneSum = zs.laneSum :=
  sumFrom_congr Lanes.proper_empty h

/-! ## Sums of whole numbers -/

section Whole

variable {φ : Nat → Float} {N : Nat}

/-- Running sums that stand for natural numbers. -/
def wholeLanes (φ : Nat → Float) (m : Fin 8 → Nat) : Lanes :=
  ⟨φ (m 0), φ (m 1), φ (m 2), φ (m 3), φ (m 4), φ (m 5), φ (m 6), φ (m 7)⟩

/-- Entries that stand for natural numbers. -/
abbrev Whole (φ : Nat → Float) : Values → List Nat → Prop := List.Forall₂ fun x n => x = φ n

theorem foldl_whole (add : ∀ m n, m + n ≤ N → φ m + φ n = φ (m + n)) {xs : Values}
    {ns : List Nat} (h : Whole φ xs ns) {k : Nat} (bound : k + ns.sum ≤ N) :
    xs.foldl (· + ·) (φ k) = φ (k + ns.sum) := by
  induction h generalizing k with
  | nil => rfl
  | @cons x n xs ns hx _ ih =>
    rw [List.sum_cons] at bound ⊢
    rw [List.foldl_cons, hx, add k n (by omega), ih (by omega), Nat.add_assoc]

theorem combine_whole (zero : φ 0 = 0) (add : ∀ m n, m + n ≤ N → φ m + φ n = φ (m + n))
    {m : Fin 8 → Nat} (bound : ∑ i, m i ≤ N) : (wholeLanes φ m).combine = φ (∑ i, m i) := by
  rw [Fin.sum_univ_eight] at bound ⊢
  simp only [Lanes.combine, wholeLanes]
  rw [add (m 0) (m 4) (by omega), add (m 1) (m 5) (by omega), add (m 2) (m 6) (by omega),
    add (m 3) (m 7) (by omega), ← zero, add _ _ (by omega), add _ _ (by omega),
    add _ _ (by omega), add _ _ (by omega)]
  congr 1
  omega

theorem sumFrom_whole (zero : φ 0 = 0) (add : ∀ m n, m + n ≤ N → φ m + φ n = φ (m + n))
    {xs : Values} {ns : List Nat} (h : Whole φ xs ns) {m : Fin 8 → Nat} {l : Lanes}
    (hl : l = wholeLanes φ m) (bound : ∑ i, m i + ns.sum ≤ N) :
    sumFrom l xs = φ (∑ i, m i + ns.sum) := by
  fun_induction sumFrom l xs generalizing ns m with
  | case1 l x0 x1 x2 x3 x4 x5 x6 x7 xs ih =>
    match ns, h with
    | n0 :: n1 :: n2 :: n3 :: n4 :: n5 :: n6 :: n7 :: tail, .cons h0 (.cons h1 (.cons h2
        (.cons h3 (.cons h4 (.cons h5 (.cons h6 (.cons h7 h))))))) =>
      subst hl
      obtain ⟨m', hm⟩ : ∃ m', (fun i => m i + ![n0, n1, n2, n3, n4, n5, n6, n7] i) = m' := ⟨_, rfl⟩
      have total : ∑ i, m' i + tail.sum = ∑ i, m i + (n0 :: n1 :: n2 :: n3 :: n4 :: n5 :: n6 ::
          n7 :: tail).sum := by
        rw [← hm, Finset.sum_add_distrib, Fin.sum_univ_eight ![n0, n1, n2, n3, n4, n5, n6, n7]]
        simp [add_assoc]
      rw [← total] at bound ⊢
      refine ih h ?_ bound
      have small (i) : m' i ≤ N :=
        (Finset.single_le_sum (fun _ _ => Nat.zero_le _) (Finset.mem_univ i)).trans
          (le_trans (Nat.le_add_right _ _) bound)
      simp only [wholeLanes, h0, h1, h2, h3, h4, h5, h6, h7, ← hm] at small ⊢
      rw [add _ n0 (small 0), add _ n1 (small 1), add _ n2 (small 2), add _ n3 (small 3),
        add _ n4 (small 4), add _ n5 (small 5), add _ n6 (small 6), add _ n7 (small 7)]
      rfl
  | case2 l xs short =>
    rw [hl, combine_whole zero add (by omega)]
    exact foldl_whole add h bound

/-- The sum of natural numbers is exact as long as all of them together are in
the range in which the additions are. -/
theorem laneSum_whole (zero : φ 0 = 0) (add : ∀ m n, m + n ≤ N → φ m + φ n = φ (m + n))
    {xs : Values} {ns : List Nat} (h : Whole φ xs ns) (bound : ns.sum ≤ N) :
    xs.laneSum = φ ns.sum := by
  have start : Lanes.empty = wholeLanes φ 0 := by
    simp [Lanes.empty, wholeLanes, zero]
  simpa [laneSum] using sumFrom_whole zero add h start (by simpa using bound)

end Whole

end Values

end UpperConfidence
