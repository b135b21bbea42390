import UpperConfidence.Proofs.Bandit.Assignment
import UpperConfidence.Proofs.Double.Integer

/-!
# Vectors of counts

Counts are doubles that stand for natural numbers. As long as they add up to at
most `2 ^ 53`, vectors of them are added exactly, their sum over the lanes is
exact, and spreading them over all arms keeps what they add up to.
-/

namespace UpperConfidence.Values

open Double

/-- The entries are natural numbers that add up to `n`. -/
def Counting (xs : Values) (n : ℕ) : Prop :=
  ∃ ns : List ℕ, List.Forall₂ (fun x (k : ℕ) => value x = some (k : ℚ)) xs ns ∧ ns.sum = n

@[simp] theorem counting_nil_iff {n : ℕ} : Counting [] n ↔ n = 0 := by
  simp [Counting, eq_comm]

theorem counting_cons_iff {x : Float} {xs : Values} {n : ℕ} :
    Counting (x :: xs) n ↔ ∃ k m, value x = some ((k : ℕ) : ℚ) ∧ Counting xs m ∧ k + m = n := by
  constructor
  · rintro ⟨ns, entries, rfl⟩
    cases entries with
    | cons hx rest => exact ⟨_, _, hx, ⟨_, rest, rfl⟩, List.sum_cons.symm⟩
  · rintro ⟨k, m, hx, ⟨ns, rest, rfl⟩, rfl⟩
    exact ⟨k :: ns, .cons hx rest, List.sum_cons⟩

theorem counting_append_iff {xs ys : Values} {n : ℕ} :
    Counting (xs ++ ys) n ↔ ∃ k m, Counting xs k ∧ Counting ys m ∧ k + m = n := by
  induction xs generalizing n with
  | nil => simp
  | cons x xs ih =>
    rw [List.cons_append, counting_cons_iff]
    simp only [ih, counting_cons_iff]
    constructor
    · rintro ⟨k, _, hx, ⟨l, m, hxs, hys, rfl⟩, rfl⟩
      exact ⟨k + l, m, ⟨k, l, hx, hxs, rfl⟩, hys, Nat.add_assoc k l m⟩
    · rintro ⟨_, m, ⟨k, l, hx, hxs, rfl⟩, hys, rfl⟩
      exact ⟨k, l + m, hx, ⟨l, m, hxs, hys, rfl⟩, (Nat.add_assoc k l m).symm⟩

theorem Counting.perm {xs ys : Values} (h : xs.Perm ys) {n : ℕ} (counting : Counting xs n) :
    Counting ys n := by
  induction h generalizing n with
  | nil => exact counting
  | cons x _ ih =>
    obtain ⟨k, m, hx, rest, rfl⟩ := counting_cons_iff.mp counting
    exact counting_cons_iff.mpr ⟨k, m, hx, ih rest, rfl⟩
  | swap x y zs =>
    obtain ⟨k, _, hy, tail, rfl⟩ := counting_cons_iff.mp counting
    obtain ⟨l, m, hx, rest, rfl⟩ := counting_cons_iff.mp tail
    exact counting_cons_iff.mpr ⟨l, k + m, hx, counting_cons_iff.mpr ⟨k, m, hy, rest, rfl⟩,
      Nat.add_left_comm l k m⟩
  | trans _ _ ih ih' => exact ih' (ih counting)

theorem counting_zeros (n : ℕ) : Counting (zeros n) 0 := by
  induction n with
  | zero => exact counting_nil_iff.mpr rfl
  | succ n ih => exact counting_cons_iff.mpr ⟨0, 0, by simp, ih, rfl⟩

theorem Counting.unique {xs : Values} {m n : ℕ} (first : Counting xs m) (second : Counting xs n) :
    m = n := by
  induction xs generalizing m n with
  | nil => rw [counting_nil_iff.mp first, counting_nil_iff.mp second]
  | cons x xs ih =>
    obtain ⟨k, m, hx, rest, rfl⟩ := counting_cons_iff.mp first
    obtain ⟨l, n, hx', rest', rfl⟩ := counting_cons_iff.mp second
    have same : (k : ℚ) = l := Option.some_inj.mp (hx.symm.trans hx')
    rw [ih rest rest', Nat.cast_injective same]

/-- An entry is at most the sum of all. -/
theorem Counting.exists_entry {xs : Values} {n : ℕ} (h : Counting xs n) {x : Float} (hx : x ∈ xs) :
    ∃ k : ℕ, value x = some (k : ℚ) ∧ k ≤ n := by
  induction xs generalizing n with
  | nil => cases hx
  | cons y xs ih =>
    obtain ⟨k, m, hy, rest, rfl⟩ := counting_cons_iff.mp h
    rcases List.mem_cons.mp hx with rfl | later
    · exact ⟨k, hy, by omega⟩
    · obtain ⟨l, hl, le⟩ := ih rest later
      exact ⟨l, hl, by omega⟩

/-- A sum of counts is exact if it is at most `2 ^ 53`. -/
theorem value_add_count {x y : Float} {m n : ℕ} (hx : value x = some (m : ℚ))
    (hy : value y = some (n : ℚ)) (bound : m + n ≤ 2 ^ 53) :
    value (x + y) = some ((m + n : ℕ) : ℚ) := by
  have sum := value_add (a := m) (b := n) (by exact_mod_cast hx) (by exact_mod_cast hy)
    (by rw [← Nat.cast_add, Nat.abs_cast]; exact_mod_cast bound)
  exact_mod_cast sum

/-- Vectors of counts are added exactly. -/
theorem Counting.add {xs ys : Values} {m n : ℕ} (hx : Counting xs m) (hy : Counting ys n)
    (length : xs.length = ys.length) (bound : m + n ≤ 2 ^ 53) :
    Counting (xs.add ys) (m + n) := by
  induction xs generalizing ys m n with
  | nil =>
    obtain rfl := List.length_eq_zero_iff.mp length.symm
    rw [counting_nil_iff.mp hx, counting_nil_iff.mp hy]
    exact counting_nil_iff.mpr rfl
  | cons x xs ih =>
    match ys, length with
    | y :: ys, length =>
      obtain ⟨k, m, vx, restx, rfl⟩ := counting_cons_iff.mp hx
      obtain ⟨l, n, vy, resty, rfl⟩ := counting_cons_iff.mp hy
      have tail := ih restx resty (by simpa using length) (by omega)
      refine counting_cons_iff.mpr ⟨k + l, m + n, value_add_count vx vy (by omega), tail, ?_⟩
      omega

/-- Doubles of the same value add the same. -/
theorem sameAddend_of_value {x y : Float} {v : ℚ} (hx : value x = some v) (hy : value y = some v) :
    SameAddend x y := by
  by_cases px : x = negZero
  · subst px
    obtain rfl : 0 = v := Option.some_inj.mp hx
    intro a ha
    rcases zero_or_negZero hy with rfl | rfl
    · rw [add_negZero, add_zero_of_ne ha]
    · rfl
  · by_cases py : y = negZero
    · subst py
      obtain rfl : 0 = v := Option.some_inj.mp hy
      intro a ha
      rw [(zero_or_negZero hx).resolve_right px, add_negZero, add_zero_of_ne ha]
    · rw [eq_of_value hx hy px py]
      exact .refl y

/-- Counts are summed exactly over the lanes. -/
theorem Counting.laneSum {xs : Values} {n : ℕ} (h : Counting xs n) (bound : n ≤ 2 ^ 53) :
    xs.laneSum = ofInt n := by
  obtain ⟨ns, entries, rfl⟩ := h
  obtain ⟨φ, hφ⟩ : ∃ φ : ℕ → Float, (fun k : ℕ => ofInt k) = φ := ⟨_, rfl⟩
  have exact {k : ℕ} (le : k ≤ 2 ^ 53) : value (φ k) = some (k : ℚ) := by
    rw [← hφ]
    exact value_ofNat le
  have positive (k : ℕ) : φ k ≠ negZero := by
    rw [← hφ]
    exact ofInt_ne_negZero k
  have add (m n : ℕ) (le : m + n ≤ 2 ^ 53) : φ m + φ n = φ (m + n) :=
    eq_of_value (value_add_count (exact (by omega)) (exact (by omega)) le) (exact le)
      (add_ne_negZero (positive m) _) (positive _)
  have same : SameAddends xs (ns.map φ) := by
    clear hφ add
    induction entries with
    | nil => exact .nil
    | @cons x k xs ns hx _ ih =>
      rw [List.sum_cons] at bound
      exact .cons (sameAddend_of_value hx (exact (by omega))) (ih (by omega))
  have whole : Whole φ (ns.map φ) ns := by
    rw [Whole, List.forall₂_map_left_iff]
    exact List.forall₂_same.mpr fun _ _ => rfl
  rw [laneSum_congr same, laneSum_whole (by rw [← hφ]; rfl) add whole bound, ← hφ]

/-- The counts of different known arms add up to the same when they are spread over all arms. -/
theorem Counting.spread {ids named : List ArmId} {xs : Values} {n : ℕ} (h : Counting xs n)
    (distinct : ids.Nodup) (nodup : named.Nodup) (known : named ⊆ ids)
    (length : xs.length = named.length) : Counting (spread ids named xs) n := by
  obtain ⟨others, reorder⟩ : ∃ others, (named ++ others).Perm ids := by
    obtain ⟨sorted, same, sublist⟩ := List.subperm_of_subset nodup known
    obtain ⟨others, rest⟩ := sublist.exists_perm_append
    exact ⟨others, (same.symm.append_right others).trans rest.symm⟩
  have unnamed : ∀ arm ∈ others, arm ∉ named := by
    intro arm mem here
    exact List.disjoint_of_nodup_append (reorder.nodup_iff.mpr distinct) here mem
  have spread_named : named.map (fun arm => ((named.zip xs).lookup arm).getD 0) = xs :=
    spread_self nodup length
  have spread_others : others.map (fun arm => ((named.zip xs).lookup arm).getD 0) =
      zeros others.length := by
    rw [zeros, List.eq_replicate_iff]
    refine ⟨by simp, fun x hx => ?_⟩
    obtain ⟨arm, mem, rfl⟩ := List.mem_map.mp hx
    rw [lookup_zip_of_notMem (unnamed arm mem), Option.getD_none]
  refine Counting.perm (reorder.map _) ?_
  rw [List.map_append, spread_named, spread_others]
  exact counting_append_iff.mpr ⟨n, 0, h, counting_zeros _, rfl⟩

end UpperConfidence.Values
