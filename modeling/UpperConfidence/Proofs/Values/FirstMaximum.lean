import UpperConfidence.Proofs.Double.Order
import UpperConfidence.Values.FirstMaximum

/-!
# The greatest number of a vector

The first maximum of a vector is a number that no other number in the vector
exceeds, unless there are no numbers at all. Nothing is greater than infinity, and
every other number is smaller. So the first maximum of a vector that has an infinity
is the first infinity, whatever else is in the vector.
-/

namespace UpperConfidence

namespace Values

namespace Candidate

/-- Only numbers become the best candidate. -/
theorem isNaN_of_foldl_better {best : Option Candidate} {next : List Candidate} {c : Candidate}
    (numbers : ∀ b ∈ best, b.value.isNaN = false) (h : next.foldl better best = some c) :
    c.value.isNaN = false := by
  induction next generalizing best with
  | nil => exact numbers c h
  | cons x xs ih =>
    refine ih (fun b hb => ?_) h
    rcases better_eq best x with kept | taken
    · exact numbers b (kept ▸ hb)
    · by_cases number : x.value.isNaN
      · have kept : better best x = best := if_pos number
        exact numbers b (kept ▸ hb)
      · obtain rfl : x = b := Option.some_inj.mp (taken.symm.trans hb)
        simpa using number

/-- Nothing among the candidates is greater than the one that is best in the end. -/
theorem le_of_foldl_better {best : Option Candidate} {next : List Candidate} {c : Candidate}
    (numbers : ∀ b ∈ best, b.value.isNaN = false) (h : next.foldl better best = some c) :
    (∀ b ∈ best, b.value ≤ c.value) ∧
      ∀ x ∈ next, x.value.isNaN = false → x.value ≤ c.value := by
  induction next generalizing best with
  | nil =>
    obtain rfl : best = some c := h
    refine ⟨fun b hb => ?_, by simp⟩
    obtain rfl := Option.some_inj.mp hb
    exact Double.le_refl_of_number (numbers _ rfl)
  | cons x xs ih =>
    rw [List.foldl_cons] at h
    by_cases lost : x.value.isNaN
    · have kept : better best x = best := if_pos lost
      rw [kept] at h
      obtain ⟨first, rest⟩ := ih numbers h
      exact ⟨first, fun y mem number => by grind⟩
    · have number : x.value.isNaN = false := by simpa using lost
      cases best with
      | none =>
        have taken : better none x = some x := if_neg lost
        rw [taken] at h
        obtain ⟨first, rest⟩ := ih (by simpa using number) h
        exact ⟨by simp, fun y mem number => by grind⟩
      | some b =>
        by_cases less : b.value < x.value
        · have taken : better (some b) x = some x := (if_neg lost).trans (if_pos less)
          rw [taken] at h
          obtain ⟨first, rest⟩ := ih (by simpa using number) h
          have here := first x rfl
          refine ⟨fun b' hb => ?_, fun y mem number => by grind⟩
          obtain rfl := Option.some_inj.mp hb
          exact Double.le_trans (Double.le_of_lt less) here
        · have kept : better (some b) x = some b := (if_neg lost).trans (if_neg less)
          rw [kept] at h
          obtain ⟨first, rest⟩ := ih numbers h
          have here := Double.le_trans (Double.le_of_not_lt number (numbers b rfl) less)
            (first b rfl)
          exact ⟨first, fun y mem number => by grind⟩

/-- A number is better than no candidate at all. -/
theorem isSome_foldl_better {best : Option Candidate} {next : List Candidate}
    (h : best.isSome ∨ ∃ x ∈ next, x.value.isNaN = false) : (next.foldl better best).isSome := by
  induction next generalizing best with
  | nil => simpa using h
  | cons x xs ih =>
    refine ih ?_
    rcases h with some | ⟨y, mem, number⟩
    · refine .inl ?_
      rcases better_eq best x with kept | taken
      · rwa [kept]
      · rw [taken]
        rfl
    · rcases List.mem_cons.mp mem with rfl | later
      · refine .inl ?_
        have regular : ¬ y.value.isNaN = true := Bool.eq_false_iff.mp number
        cases best with
        | none => rw [show better none y = some y from if_neg regular]; rfl
        | some b =>
          rcases better_eq (some b) y with kept | taken
          · rw [kept]; rfl
          · rw [taken]; rfl
      · exact .inr ⟨y, later, number⟩

/-- A candidate that no later number exceeds stays the best one. -/
theorem foldl_better_of_le {c : Candidate} {later : List Candidate}
    (upper : ∀ x ∈ later, x.value.isNaN = false → x.value ≤ c.value) :
    later.foldl better (some c) = some c := by
  induction later with
  | nil => rfl
  | cons x xs ih =>
    obtain ⟨here, rest⟩ := List.forall_mem_cons.mp upper
    have kept : better (some c) x = some c := by
      by_cases lost : x.value.isNaN
      · exact if_pos lost
      · exact (if_neg lost).trans (if_neg (Double.not_lt_of_le (here (by simpa using lost))))
    rw [List.foldl_cons, kept, ih rest]

/-- A number that exceeds all numbers before it becomes the best candidate. -/
theorem better_foldl_of_lt {c : Candidate} {earlier : List Candidate}
    (number : c.value.isNaN = false)
    (lower : ∀ x ∈ earlier, x.value.isNaN = false → x.value < c.value) :
    better (earlier.foldl better none) c = some c := by
  have regular : ¬ c.value.isNaN = true := Bool.eq_false_iff.mp number
  cases best : earlier.foldl better none with
  | none => exact if_neg regular
  | some b =>
    have number' := isNaN_of_foldl_better (by simp) best
    have mem := (mem_of_foldl_better best).resolve_left (by simp)
    exact (if_neg regular).trans (if_pos (lower b mem number'))

end Candidate

/-- The chosen entry is a number, and no other number exceeds it. -/
theorem exists_firstMaximum {xs : Values} (h : ∃ x ∈ xs, x.isNaN = false) :
    ∃ m, xs[xs.firstMaximum]? = some m ∧ m.isNaN = false ∧
      ∀ x ∈ xs, x.isNaN = false → x ≤ m := by
  obtain ⟨cs, hcs, maximum⟩ : ∃ cs : List Candidate, xs.zipIdx.map (fun p => ⟨p.1, p.2⟩) = cs ∧
      xs.maximum? = cs.foldl Candidate.better none := ⟨_, rfl, rfl⟩
  have listed {x : Float} (mem : x ∈ xs) : ∃ c ∈ cs, c.value = x := by
    obtain ⟨i, hi, rfl⟩ := List.getElem_of_mem mem
    refine ⟨⟨xs[i], i⟩, ?_, rfl⟩
    have entry : (xs[i], i) ∈ xs.zipIdx :=
      List.mem_zipIdx_iff_getElem?.mpr (List.getElem?_eq_getElem hi)
    rw [← hcs]
    exact List.mem_map_of_mem entry
  have some : xs.maximum?.isSome := by
    obtain ⟨x, mem, number⟩ := h
    obtain ⟨c, here, rfl⟩ := listed mem
    rw [maximum]
    exact Candidate.isSome_foldl_better (.inr ⟨c, here, number⟩)
  obtain ⟨m, chosen⟩ := Option.isSome_iff_exists.mp some
  have position : xs.firstMaximum = m.position := by
    rw [firstMaximum, chosen]
    rfl
  have entry := getElem?_of_maximum? chosen
  rw [maximum] at chosen
  refine ⟨m.value, position ▸ entry, Candidate.isNaN_of_foldl_better (by simp) chosen, ?_⟩
  intro x mem number
  obtain ⟨c, here, rfl⟩ := listed mem
  exact (Candidate.le_of_foldl_better (by simp) chosen).2 c here number

/-- The value at position `i` is a number, no number in the vector exceeds it, and all numbers
before it are smaller. -/
structure FirstMaximumAt (xs : Values) (i : Nat) (m : Float) : Prop where
  entry : xs[i]? = some m
  number : m.isNaN = false
  greatest : ∀ x ∈ xs, x.isNaN = false → x ≤ m
  first : ∀ j < i, ∀ x, xs[j]? = some x → x.isNaN = false → x < m

theorem FirstMaximumAt.maximum?_eq {xs : Values} {i : Nat} {m : Float}
    (h : xs.FirstMaximumAt i m) : xs.maximum? = some ⟨m, i⟩ := by
  obtain ⟨hi, entry⟩ := List.getElem?_eq_some_iff.mp h.entry
  obtain ⟨pre, post, split, length⟩ : ∃ pre post, xs = pre ++ m :: post ∧ pre.length = i := by
    refine ⟨xs.take i, xs.drop (i + 1), ?_, List.length_take_of_le hi.le⟩
    rw [← entry, List.cons_getElem_drop_succ, List.take_append_drop]
  have earlier : ∀ x ∈ pre, x.isNaN = false → x < m := by
    intro x mem
    obtain ⟨j, hj, rfl⟩ := List.getElem_of_mem mem
    refine h.first j (length ▸ hj) _ ?_
    rw [split, List.getElem?_append_left hj, List.getElem?_eq_getElem hj]
  have later : ∀ x ∈ post, x.isNaN = false → x ≤ m := fun x mem =>
    h.greatest x (by simp [split, mem])
  rw [maximum?, split, List.zipIdx_append, List.map_append, List.foldl_append, List.zipIdx_cons,
    List.map_cons, List.foldl_cons, length, Nat.zero_add,
    Candidate.better_foldl_of_lt (c := ⟨m, i⟩) h.number, Candidate.foldl_better_of_le]
  · intro c mem
    obtain ⟨p, here, rfl⟩ := List.mem_map.mp mem
    exact later p.1 (List.fst_mem_of_mem_zipIdx here)
  · intro c mem
    obtain ⟨p, here, rfl⟩ := List.mem_map.mp mem
    exact earlier p.1 (List.fst_mem_of_mem_zipIdx here)

/-- There is no other first maximum than the chosen entry. -/
theorem FirstMaximumAt.firstMaximum_eq {xs : Values} {i : Nat} {m : Float}
    (h : xs.FirstMaximumAt i m) : xs.firstMaximum = i := by
  rw [firstMaximum, h.maximum?_eq]
  rfl

/-- A vector that has a number has a first maximum, and it is chosen. -/
theorem firstMaximumAt_firstMaximum {xs : Values} (h : ∃ x ∈ xs, x.isNaN = false) :
    ∃ m, xs.FirstMaximumAt xs.firstMaximum m := by
  obtain ⟨m, entry, number, greatest⟩ := exists_firstMaximum h
  have exists_greatest : ∃ i m, xs[i]? = some m ∧ m.isNaN = false ∧
      ∀ x ∈ xs, x.isNaN = false → x ≤ m := ⟨_, m, entry, number, greatest⟩
  classical
  obtain ⟨m', entry', number', greatest'⟩ := Nat.find_spec exists_greatest
  have first : xs.FirstMaximumAt (Nat.find exists_greatest) m' := by
    refine ⟨entry', number', greatest', fun j before x here regular => ?_⟩
    -- otherwise the entry before would be a greatest number as well
    by_contra not_lt
    have upper := Double.le_of_not_lt number' regular not_lt
    exact Nat.find_min exists_greatest before ⟨x, here, regular, fun y mem number =>
      Double.le_trans (greatest' y mem number) upper⟩
  exact ⟨m', first.firstMaximum_eq ▸ first⟩

/-- Where nothing is a number, the position is zero. -/
theorem firstMaximum_of_lost {xs : Values} (lost : ∀ x ∈ xs, x.isNaN = true) :
    xs.firstMaximum = 0 := by
  cases chosen : xs.maximum? with
  | none => rw [firstMaximum, chosen]; rfl
  | some c =>
    have number := Candidate.isNaN_of_foldl_better (by simp) chosen
    have mem := List.mem_of_getElem? (getElem?_of_maximum? chosen)
    rw [lost c.value mem] at number
    cases number

/-- A number that is greater than all others is chosen. -/
theorem firstMaximum_of_greatest {xs : Values} {i : Nat} {x : Float} (here : xs[i]? = some x)
    (number : x.isNaN = false)
    (greatest : ∀ j y, j ≠ i → xs[j]? = some y → y.isNaN = false → y < x) :
    xs.firstMaximum = i := by
  have first : xs.FirstMaximumAt i x := by
    refine ⟨here, number, fun y mem number' => ?_, fun j before y => greatest j y before.ne⟩
    obtain ⟨j, entry⟩ := List.getElem?_of_mem mem
    by_cases same : j = i
    · obtain rfl : x = y := Option.some_inj.mp (here.symm.trans (same ▸ entry))
      exact Double.le_refl_of_number number
    · exact Double.le_of_lt (greatest j y same entry number')
  exact first.firstMaximum_eq

/-- The first infinity is chosen, wherever the other entries are finite or not numbers. -/
theorem firstMaximum_of_infinity {xs : Values} {i : Nat} (here : xs[i]? = some infinity)
    (before : ∀ j < i, xs[j]? ≠ some infinity) : xs.firstMaximum = i := by
  have first : xs.FirstMaximumAt i infinity := by
    refine ⟨here, Double.isNaN_infinity, fun x _ => Double.le_infinity,
      fun j hj x entry number => ?_⟩
    refine Double.lt_infinity number ?_
    rintro rfl
    exact before j hj entry
  exact first.firstMaximum_eq

end Values

end UpperConfidence
