import UpperConfidence.Proofs.Double.Tame

/-!
# The order of doubles

Numbers are ordered like the rationals with an infinity at each end, and what is not
a number is in no order with anything. So all laws of a linear order hold among
numbers, and a comparison that holds is one between numbers.
-/

namespace UpperConfidence.Double

open Float.Model Float.Model.UnpackedFloat

theorem isNaN_def (x : Float) : x.isNaN = (parts x).isNaN := rfl

/-- The place of a number on the line of rationals with two ends. -/
def level (x : Float) : WithBot (WithTop ℚ) :=
  match parts x with
  | .infinity .negative => ⊥
  | .infinity .positive => (⊤ : WithTop ℚ)
  | _ => (((value x).getD 0 : ℚ) : WithTop ℚ)

theorem level_of_value {x : Float} {v : ℚ} (h : value x = some v) : level x = (v : WithTop ℚ) := by
  unfold level
  rcases value_cases h with ⟨s, px, -⟩ | ⟨s, m, e, hm, px, -⟩ <;> rw [px, h] <;> rfl

@[simp] theorem level_infinity : level infinity = (⊤ : WithTop ℚ) := rfl

@[simp] theorem isNaN_infinity : infinity.isNaN = false := by decide

@[simp] theorem isNaN_nan : nan.isNaN = true := by decide

theorem isNaN_of_value {x : Float} {v : ℚ} (h : value x = some v) : x.isNaN = false := by
  rw [isNaN_def]
  rcases value_cases h with ⟨s, px, -⟩ | ⟨s, m, e, hm, px, -⟩ <;> rw [px] <;> rfl

/-- A number has a value or is infinite. -/
theorem number_cases {x : Float} (number : x.isNaN = false) :
    (∃ v, value x = some v) ∨ x = -infinity ∨ x = infinity := by
  rw [isNaN_def] at number
  cases px : parts x with
  | notANumber => simp [px, UnpackedFloat.isNaN] at number
  | infinity s =>
    cases s with
    | negative => exact .inr (.inl (parts_injective px))
    | positive => exact .inr (.inr (parts_injective px))
  | _ => exact .inl ⟨_, by rw [value, px]; rfl⟩

/-- A finite number is between the infinities. -/
theorem compare_infinity {x : Float} {v : ℚ} (h : value x = some v) :
    (parts x).compare (.infinity .negative) = some .gt ∧
    (parts x).compare (.infinity .positive) = some .lt ∧
    (UnpackedFloat.infinity .negative).compare (parts x) = some .lt ∧
    (UnpackedFloat.infinity .positive).compare (parts x) = some .gt := by
  rcases value_cases h with ⟨s, px, -⟩ | ⟨s, m, e, hm, px, -⟩ <;> rw [px] <;>
    exact ⟨rfl, rfl, rfl, rfl⟩

/-- Numbers compare as their places do. -/
theorem compare_level {x y : Float} (hx : x.isNaN = false) (hy : y.isNaN = false) :
    (parts x).compare (parts y) = some (compare (level x) (level y)) := by
  have bottom (v : ℚ) : (⊥ : WithBot (WithTop ℚ)) < (v : WithTop ℚ) := WithBot.bot_lt_coe _
  have top (v : ℚ) : ((v : WithTop ℚ) : WithBot (WithTop ℚ)) < (⊤ : WithTop ℚ) :=
    WithBot.coe_lt_coe.mpr (WithTop.coe_lt_top v)
  have ends : (⊥ : WithBot (WithTop ℚ)) < (⊤ : WithTop ℚ) := WithBot.bot_lt_coe _
  have low : level (-infinity) = ⊥ := rfl
  have lowParts : parts (-infinity) = .infinity .negative := rfl
  rcases number_cases hx with ⟨v, vx⟩ | rfl | rfl <;>
    rcases number_cases hy with ⟨w, vy⟩ | rfl | rfl
  · have same : compare (level x) (level y) = compare v w := by
      rw [level_of_value vx, level_of_value vy]
      rcases lt_trichotomy v w with lt | rfl | gt
      · rw [compare_lt_iff_lt.mpr lt, compare_lt_iff_lt]
        exact_mod_cast lt
      · rw [compare_eq_iff_eq.mpr rfl, compare_eq_iff_eq.mpr rfl]
      · rw [compare_gt_iff_gt.mpr gt, compare_gt_iff_gt]
        exact_mod_cast gt
    rw [compare_parts vx vy, same]
  · rw [low, level_of_value vx, compare_gt_iff_gt.mpr (bottom v)]
    exact (compare_infinity vx).1
  · rw [level_infinity, level_of_value vx, compare_lt_iff_lt.mpr (top v)]
    exact (compare_infinity vx).2.1
  · rw [low, level_of_value vy, compare_lt_iff_lt.mpr (bottom w)]
    exact (compare_infinity vy).2.2.1
  · rw [compare_eq_iff_eq.mpr rfl, lowParts]
    rfl
  · rw [low, level_infinity, compare_lt_iff_lt.mpr ends]
    rfl
  · rw [level_infinity, level_of_value vy, compare_gt_iff_gt.mpr (top w)]
    exact (compare_infinity vy).2.2.2
  · rw [low, level_infinity, compare_gt_iff_gt.mpr ends]
    rfl
  · rw [compare_eq_iff_eq.mpr rfl]
    rfl

/-! ## Comparisons -/

section Comparisons

variable {x y z : Float}

theorem compare_nan (lost : x.isNaN = true ∨ y.isNaN = true) :
    (parts x).compare (parts y) = none := by
  rw [isNaN_def, isNaN_def] at lost
  cases px : parts x <;> cases py : parts y <;>
    simp_all [UnpackedFloat.isNaN, UnpackedFloat.compare]

/-- What is compared is a number. -/
theorem numbers_of_le (h : x ≤ y) : x.isNaN = false ∧ y.isNaN = false := by
  rw [le_def, UnpackedFloat.le] at h
  by_contra lost
  rw [not_and_or, Bool.not_eq_false, Bool.not_eq_false] at lost
  rw [compare_nan lost] at h
  cases h

theorem le_iff_level (hx : x.isNaN = false) (hy : y.isNaN = false) :
    x ≤ y ↔ level x ≤ level y := by
  rw [le_def, UnpackedFloat.le, compare_level hx hy, Option.any_some]
  exact Std.LawfulBCmp.isLE_iff_le

theorem lt_iff_level (hx : x.isNaN = false) (hy : y.isNaN = false) :
    x < y ↔ level x < level y := by
  rw [lt_def, UnpackedFloat.lt, compare_level hx hy, beq_iff_eq, Option.some_inj,
    compare_lt_iff_lt]

theorem lt_iff_value {v w : ℚ} (hx : value x = some v) (hy : value y = some w) :
    x < y ↔ v < w := by
  rw [lt_iff_level (isNaN_of_value hx) (isNaN_of_value hy), level_of_value hx, level_of_value hy]
  norm_cast

theorem level_le_of_le (h : x ≤ y) : level x ≤ level y :=
  (le_iff_level (numbers_of_le h).1 (numbers_of_le h).2).mp h

theorem le_refl_of_number (hx : x.isNaN = false) : x ≤ x := (le_iff_level hx hx).mpr le_rfl

theorem le_trans (hxy : x ≤ y) (hyz : y ≤ z) : x ≤ z :=
  (le_iff_level (numbers_of_le hxy).1 (numbers_of_le hyz).2).mpr
    ((level_le_of_le hxy).trans (level_le_of_le hyz))

theorem lt_of_lt_of_le (hxy : x < y) (hyz : y ≤ z) : x < z := by
  obtain ⟨hx, hy⟩ := numbers_of_le (le_of_lt hxy)
  rw [lt_iff_level hx hy] at hxy
  exact (lt_iff_level hx (numbers_of_le hyz).2).mpr (hxy.trans_le (level_le_of_le hyz))

theorem le_of_not_lt (hx : x.isNaN = false) (hy : y.isNaN = false) (h : ¬ y < x) : x ≤ y := by
  rw [lt_iff_level hy hx] at h
  exact (le_iff_level hx hy).mpr (not_lt.mp h)

theorem not_lt_of_le (h : x ≤ y) : ¬ y < x := by
  obtain ⟨hx, hy⟩ := numbers_of_le h
  rw [lt_iff_level hy hx]
  exact not_lt.mpr (level_le_of_le h)

theorem le_infinity (hx : x.isNaN = false) : x ≤ infinity := by
  rw [le_iff_level hx isNaN_infinity, level_infinity]
  rcases level x with _ | v
  · exact bot_le
  · exact WithBot.coe_le_coe.mpr le_top

theorem lt_infinity (hx : x.isNaN = false) (ne : x ≠ infinity) : x < infinity := by
  rcases number_cases hx with ⟨v, vx⟩ | rfl | rfl
  · rw [lt_iff_level hx isNaN_infinity, level_of_value vx, level_infinity]
    exact WithBot.coe_lt_coe.mpr (WithTop.coe_lt_top v)
  · decide
  · exact absurd rfl ne

/-! ## Signs -/

/-- Negation turns the order around. -/
theorem compare_neg_parts (u w : UnpackedFloat) : u.neg.compare w.neg = w.compare u := by
  have swap (m n : ℕ) (e f : ℤ) :
      ((compare e f).then (compare m n)).swap = (compare f e).then (compare n m) := by
    rw [Ordering.swap_then, Int.compare_swap, Nat.compare_swap]
  cases u with
  | finite s m e hm =>
    cases w with
    | finite t n f hn =>
      cases s <;> cases t
      · exact congrArg some (swap n m f e).symm
      · rfl
      · rfl
      · exact congrArg some (swap m n e f)
    | notANumber => rfl
    | _ t => cases s <;> cases t <;> rfl
  | notANumber => cases w <;> rfl
  | _ s =>
    cases w with
    | finite t n f hn => cases s <;> cases t <;> rfl
    | notANumber => cases s <;> rfl
    | _ t => cases s <;> cases t <;> rfl

theorem neg_le_neg_iff {x y : Float} : -x ≤ -y ↔ y ≤ x := by
  rw [le_def, le_def, UnpackedFloat.le, UnpackedFloat.le, parts_neg, parts_neg, compare_neg_parts]

theorem neg_neg_self (x : Float) : - -x = x := by
  apply parts_injective
  rw [parts_neg, parts_neg]
  have signs : ∀ s : Sign, - -s = s := by rintro (_ | _) <;> rfl
  cases parts x <;> simp [UnpackedFloat.neg, signs]

/-- What is between two finite numbers is finite. -/
theorem exists_value_of_le {v w : ℚ} (hx : value x = some v) (hz : value z = some w) (hxy : x ≤ y)
    (hyz : y ≤ z) : ∃ u, value y = some u ∧ v ≤ u ∧ u ≤ w := by
  rcases number_cases (numbers_of_le hxy).2 with ⟨u, hy⟩ | rfl | rfl
  · exact ⟨u, hy, (le_iff_value hx hy).mp hxy, (le_iff_value hy hz).mp hyz⟩
  · rw [le_def, UnpackedFloat.le] at hxy
    rw [show parts (-infinity) = .infinity .negative from rfl, (compare_infinity hx).1] at hxy
    cases hxy
  · rw [le_def, UnpackedFloat.le, parts_infinity, (compare_infinity hz).2.2.2] at hyz
    cases hyz

/-- What is not negative has a value that is not negative, or is infinite. -/
theorem nonneg_cases (h : 0 ≤ x) : (∃ v, value x = some v ∧ 0 ≤ v) ∨ x = infinity := by
  rcases number_cases (numbers_of_le h).2 with ⟨v, hx⟩ | rfl | rfl
  · exact .inl ⟨v, hx, (le_iff_value value_zero hx).mp h⟩
  · exact absurd h (by decide)
  · exact .inr rfl

end Comparisons

end UpperConfidence.Double
