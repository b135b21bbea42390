import UpperConfidence.Values.Basic

/-!
# The first maximum of a vector

Selection keeps the best value seen so far and replaces it only by a strictly
greater one, so of equal maxima the first is chosen. A value that is not a
number never becomes the best one. When nothing can be chosen, the position
is zero.
-/

namespace UpperConfidence.Values

/-- A value together with its position. -/
structure Candidate where
  value : Float
  position : Nat

/-- The better of the best candidate so far and the next one. -/
def Candidate.better (best : Option Candidate) (next : Candidate) : Option Candidate :=
  if next.value.isNaN then best
  else match best with
    | none => some next
    | some b => if b.value < next.value then some next else some b

/-- The first of the greatest values that are numbers, if there is one. -/
def maximum? (xs : Values) : Option Candidate :=
  (xs.zipIdx.map fun (x, i) => ⟨x, i⟩).foldl Candidate.better none

/-- The position of the first maximum, or zero when no value is a number. -/
def firstMaximum (xs : Values) : Nat := (maximum? xs).elim 0 Candidate.position

theorem firstMaximum_nil : firstMaximum [] = 0 := rfl

theorem Candidate.better_eq (best : Option Candidate) (next : Candidate) :
    better best next = best ∨ better best next = some next := by
  unfold better
  split
  · exact .inl rfl
  · split
    · exact .inr rfl
    · split
      · exact .inr rfl
      · exact .inl rfl

theorem Candidate.mem_of_foldl_better {best : Option Candidate} {next : List Candidate}
    {c : Candidate} (h : next.foldl better best = some c) : best = some c ∨ c ∈ next := by
  induction next generalizing best with
  | nil => exact .inl h
  | cons x xs ih =>
    rcases ih h with hb | hx
    · rcases better_eq best x with e | e
      · exact .inl (e.symm.trans hb)
      · exact .inr (by simp_all)
    · exact .inr (.tail _ hx)

/-- A maximum is a value of the vector at its own position. -/
theorem getElem?_of_maximum? {xs : Values} {c : Candidate} (h : xs.maximum? = some c) :
    xs[c.position]? = some c.value := by
  rcases Candidate.mem_of_foldl_better h with hn | hc
  · cases hn
  · obtain ⟨⟨x, i⟩, hx, rfl⟩ := List.mem_map.mp hc
    simpa using List.mem_zipIdx_iff_getElem?.mp hx

theorem firstMaximum_lt_length {xs : Values} (h : xs ≠ []) : xs.firstMaximum < xs.length := by
  unfold firstMaximum
  cases hc : xs.maximum? with
  | none => exact List.length_pos_iff.mpr h
  | some c => exact (List.getElem?_eq_some_iff.mp (getElem?_of_maximum? hc)).1

end UpperConfidence.Values
