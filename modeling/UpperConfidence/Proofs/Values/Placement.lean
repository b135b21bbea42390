import Mathlib
import UpperConfidence.Values.Scatter

/-!
# Reading back placed values

Placing values at different positions puts each of them, added to zero, at its
own position and leaves zeros everywhere else, in whatever order they are
placed.
-/

namespace UpperConfidence.Values

theorem getElem?_foldl_modify_of_notMem {i : Nat} {placed : List (Float × Nat)}
    (h : i ∉ placed.map Prod.snd) (xs : Values) :
    (placed.foldl (fun xs (x, i) => xs.modify i (· + x)) xs)[i]? = xs[i]? := by
  induction placed generalizing xs with
  | nil => rfl
  | cons p placed ih =>
    obtain ⟨x, j⟩ := p
    simp only [List.map_cons, List.mem_cons, not_or] at h
    rw [List.foldl_cons, ih h.2, List.getElem?_modify]
    simp [Ne.symm h.1]

theorem getElem?_foldl_modify_of_mem {i : Nat} {x : Float} {placed : List (Float × Nat)}
    (nodup : (placed.map Prod.snd).Nodup) (h : (x, i) ∈ placed) (xs : Values) :
    (placed.foldl (fun xs (x, i) => xs.modify i (· + x)) xs)[i]? = xs[i]?.map (· + x) := by
  induction placed generalizing xs with
  | nil => cases h
  | cons p placed ih =>
    obtain ⟨y, j⟩ := p
    rw [List.map_cons, List.nodup_cons] at nodup
    rcases List.mem_cons.mp h with same | later
    · -- the position does not come again, so the value stays as it is placed here
      obtain ⟨rfl, rfl⟩ := Prod.mk.inj same
      rw [List.foldl_cons, getElem?_foldl_modify_of_notMem nodup.1, List.getElem?_modify]
      simp
    · have other : j ≠ i := by
        rintro rfl
        exact nodup.1 (List.mem_map.mpr ⟨_, later, rfl⟩)
      rw [List.foldl_cons, ih nodup.2 later, List.getElem?_modify]
      simp [other]

theorem getElem?_scatter_of_notMem {n i : Nat} (hi : i < n) {placed : List (Float × Nat)}
    (h : i ∉ placed.map Prod.snd) : (scatter n placed)[i]? = some 0 := by
  rw [scatter, getElem?_foldl_modify_of_notMem h, zeros, List.getElem?_replicate_of_lt hi]

theorem getElem?_scatter_of_mem {n i : Nat} (hi : i < n) {x : Float} {placed : List (Float × Nat)}
    (nodup : (placed.map Prod.snd).Nodup) (h : (x, i) ∈ placed) :
    (scatter n placed)[i]? = some (0 + x) := by
  rw [scatter, getElem?_foldl_modify_of_mem nodup h, zeros, List.getElem?_replicate_of_lt hi]
  rfl

/-- Values find their places when there is one for each of them, inside the vector. -/
theorem place_eq_ok {xs : Values} {positions : List Nat} {n : Nat}
    (length : xs.length = positions.length) (bound : ∀ i ∈ positions, i < n) :
    xs.place positions n = .ok (scatter n (xs.zip positions)) := by
  have inside : positions.find? (n ≤ ·) = none := by
    rw [List.find?_eq_none]
    intro i hi
    simpa using bound i hi
  simp only [place, requireLength, if_pos length, inside]
  rfl

end UpperConfidence.Values
