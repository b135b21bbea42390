import UpperConfidence.Proofs.Bandit.Invariant
import UpperConfidence.Proofs.Values.FirstMaximum
import UpperConfidence.Testbed.Basic

/-!
# What is chosen

A bandit plays the first of the arms with the greatest score, and the best arm of a
testbed is the first of those with the greatest mean. A score that is not a number is
never the greatest, so such an arm is played only if no arm has a score. Entries that
are not numbers can be put in anywhere, and entries that are not chosen can be made
smaller: what is chosen stays the same.
-/

namespace UpperConfidence

open Double (nan)

namespace Values

/-- `ys` is `xs` with entries put in that are not numbers. What is at position `i` of `xs` is at
position `f i` of `ys`. -/
structure Padded (xs ys : Values) (f : ℕ → ℕ) : Prop where
  mono : StrictMono f
  kept : ∀ i < xs.length, ys[f i]? = xs[i]?
  added : ∀ j y, ys[j]? = some y → (∃ i < xs.length, f i = j) ∨ y.isNaN = true

variable {xs ys : Values} {f : ℕ → ℕ} {i : ℕ} {m : Float}

theorem padded_insertIdx {k : ℕ} (hk : k ≤ xs.length) {x : Float} (lost : x.isNaN = true) :
    Padded xs (xs.insertIdx k x) fun i => if i < k then i else i + 1 where
  mono := by
    intro i j less
    grind
  kept i hi := by
    by_cases before : i < k
    · rw [if_pos before, List.getElem?_insertIdx_of_lt before]
    · rw [if_neg before, List.getElem?_insertIdx_of_gt (by omega), Nat.add_sub_cancel]
  added j y entry := by
    rcases lt_trichotomy j k with before | rfl | after
    · exact .inl ⟨j, by omega, if_pos before⟩
    · rw [List.getElem?_insertIdx_self, if_pos hk] at entry
      exact .inr (Option.some_inj.mp entry ▸ lost)
    · rw [List.getElem?_insertIdx_of_gt after] at entry
      have hj := (List.getElem?_eq_some_iff.mp entry).1
      exact .inl ⟨j - 1, hj, (if_neg (by omega)).trans (by omega)⟩

namespace FirstMaximumAt

/-- Entries that are not numbers move a first maximum to another position at most. -/
theorem pad (h : xs.FirstMaximumAt i m) (padded : Padded xs ys f) : ys.FirstMaximumAt (f i) m where
  entry := (padded.kept i (List.getElem?_eq_some_iff.mp h.entry).1).trans h.entry
  number := h.number
  greatest y mem number := by
    obtain ⟨j, here⟩ := List.getElem?_of_mem mem
    rcases padded.added j y here with ⟨k, hk, rfl⟩ | lost
    · rw [padded.kept k hk] at here
      exact h.greatest y (List.mem_of_getElem? here) number
    · cases lost.symm.trans number
  first j hj y here number := by
    rcases padded.added j y here with ⟨k, hk, rfl⟩ | lost
    · rw [padded.kept k hk] at here
      exact h.first k (padded.mono.lt_iff_lt.mp hj) y here number
    · cases lost.symm.trans number

/-- A first maximum does not care about entries that are smaller. -/
theorem set (h : xs.FirstMaximumAt i m) {j : ℕ} (other : j ≠ i) {y : Float} (less : y < m) :
    FirstMaximumAt (xs.set j y) i m where
  entry := by rw [List.getElem?_set_ne other, h.entry]
  number := h.number
  greatest x mem number := by
    rcases List.mem_or_eq_of_mem_set mem with old | rfl
    · exact h.greatest x old number
    · exact Double.le_of_lt less
  first k hk x here number := by
    by_cases same : j = k
    · rw [same, List.getElem?_set_self'] at here
      obtain ⟨-, -, rfl⟩ := Option.map_eq_some_iff.mp here
      exact less
    · rw [List.getElem?_set_ne same] at here
      exact h.first k hk x here number

end FirstMaximumAt

/-- The chosen position is the only one of a first maximum. -/
theorem isLeast_firstMaximum (h : ∃ x ∈ xs, x.isNaN = false) :
    IsLeast {i | ∃ m, xs.FirstMaximumAt i m} xs.firstMaximum := by
  refine ⟨firstMaximumAt_firstMaximum h, ?_⟩
  rintro i ⟨m, first⟩
  exact first.firstMaximum_eq.le

theorem lost_or_number (xs : Values) :
    (∀ x ∈ xs, x.isNaN = true) ∨ ∃ x ∈ xs, x.isNaN = false := by
  by_cases lost : ∀ x ∈ xs, x.isNaN = true
  · exact .inl lost
  · exact .inr (by simpa using lost)

theorem firstMaximum_eq_zero_iff (xs : Values) :
    xs.firstMaximum = 0 ↔ (∀ x ∈ xs, x.isNaN = true) ∨ ∃ m, xs.FirstMaximumAt 0 m := by
  constructor
  · intro zero
    refine (lost_or_number xs).imp_right fun number => ?_
    exact zero ▸ firstMaximumAt_firstMaximum number
  · rintro (lost | ⟨m, first⟩)
    · exact firstMaximum_of_lost lost
    · exact first.firstMaximum_eq

end Values

namespace Bandit

variable {b : Bandit} {ln : Float → Float}

/-- The arm that is played, by the scores of the arms. -/
structure Selects (b : Bandit) (ln : Float → Float) : Prop where
  /-- It is the first one with the greatest score. -/
  greatest : (∃ x ∈ b.scores ln, x.isNaN = false) → ∃ i m arm,
    (b.scores ln).FirstMaximumAt i m ∧ b.ids[i]? = some arm ∧ b.action ln = .ok arm
  /-- It is the first of all arms if no score is a number. -/
  lost : (∀ x ∈ b.scores ln, x.isNaN = true) →
    ∃ arm, b.ids.head? = some arm ∧ b.action ln = .ok arm
  /-- Its own score is a number unless none is. -/
  number : ∀ (i : ℕ) (arm : ArmId) (x : Float), b.action ln = .ok arm → b.ids[i]? = some arm →
    (b.scores ln)[i]? = some x → x.isNaN = true → ∀ y ∈ b.scores ln, y.isNaN = true

theorem WellFormed.selects (wf : b.WellFormed) (ln : Float → Float) : b.Selects ln := by
  obtain ⟨arm, place, action⟩ := wf.action ln
  refine ⟨fun number => ?_, fun lost => ?_, fun i arm' x action' place' entry lost => ?_⟩
  · obtain ⟨m, first⟩ := Values.firstMaximumAt_firstMaximum number
    exact ⟨_, m, arm, first, place, action⟩
  · rw [Values.firstMaximum_of_lost lost, ← List.head?_eq_getElem?] at place
    exact ⟨arm, place, action⟩
  · refine (Values.lost_or_number _).resolve_right fun number => ?_
    obtain ⟨m, first⟩ := Values.firstMaximumAt_firstMaximum number
    obtain rfl : arm = arm' := Except.ok.inj (action.symm.trans action')
    obtain ⟨hi, -⟩ := List.getElem?_eq_some_iff.mp place'
    obtain rfl := (List.getElem?_inj hi wf.nodup).mp (place'.trans place.symm)
    obtain rfl := Option.some_inj.mp (first.entry.symm.trans entry)
    cases lost.symm.trans first.number

end Bandit

/-- A vector's first maximum is the chosen position, and entries that are not numbers or that stay
below it make no difference. A bandit chooses by its scores and a testbed by its means. -/
theorem first_maximum_is_chosen :
    (∀ xs : Values,
      ((∃ x ∈ xs, x.isNaN = false) →
        IsLeast {i | ∃ m, xs.FirstMaximumAt i m} xs.firstMaximum) ∧
      (xs.firstMaximum = 0 ↔ (∀ x ∈ xs, x.isNaN = true) ∨ ∃ m, xs.FirstMaximumAt 0 m) ∧
      (∀ ys f, xs.Padded ys f → (∃ x ∈ xs, x.isNaN = false) →
        ys.firstMaximum = f xs.firstMaximum) ∧
      ∀ j y m, xs[xs.firstMaximum]? = some m → j ≠ xs.firstMaximum → y < m →
        Values.firstMaximum (xs.set j y) = xs.firstMaximum) ∧
    (∀ b : Bandit, b.Reachable → ∀ ln, b.Selects ln) ∧
    ∀ t : Testbed,
      ((∃ x ∈ t.means, x.isNaN = false) →
        IsLeast {i | ∃ m, t.means.FirstMaximumAt i m} t.bestArm) ∧
      ((∀ x ∈ t.means, x.isNaN = true) → t.bestArm = 0) := by
  refine ⟨fun xs => ⟨Values.isLeast_firstMaximum, Values.firstMaximum_eq_zero_iff xs,
    fun ys f padded number => ?_, fun j y m entry other less => ?_⟩,
    fun b reachable ln => reachable.wellFormed.selects ln,
    fun t => ⟨Values.isLeast_firstMaximum, Values.firstMaximum_of_lost⟩⟩
  · obtain ⟨m, first⟩ := Values.firstMaximumAt_firstMaximum number
    exact (first.pad padded).firstMaximum_eq
  · have number := (Double.numbers_of_le (Double.le_of_lt less)).2
    obtain ⟨m', first⟩ := Values.firstMaximumAt_firstMaximum ⟨m, List.mem_of_getElem? entry, number⟩
    obtain rfl := Option.some_inj.mp (first.entry.symm.trans entry)
    exact (first.set other less).firstMaximum_eq

/-- The maximum comes twice, behind an entry that is not a number, and a new bandit chooses between
two infinite scores. -/
theorem first_maximum_is_chosen_of_ties : ∃ b : Bandit, b.Reachable ∧
    IsLeast {i | ∃ m, Values.FirstMaximumAt [nan, 1, 3, 3] i m} 2 ∧
    Values.firstMaximum [nan, 1, nan, 3, 3] = 3 ∧ Values.firstMaximum [nan, 1, 3, 2] = 2 ∧
    (∃ i m arm, (b.scores fun _ => 0).FirstMaximumAt i m ∧ b.ids[i]? = some arm ∧
      (b.action fun _ => 0) = .ok arm) ∧
    IsLeast {i | ∃ m, Values.FirstMaximumAt [nan, 1, 0] i m}
      (Testbed.mk [.gaussian nan 1, .bernoulli 1, .gaussian 0 1]).bestArm := by
  obtain ⟨vectors, bandits, testbeds⟩ := first_maximum_is_chosen
  obtain ⟨b, hb, created, reachable⟩ :=
    Bandit.exists_create (.count 2) .ucb1 (by decide) (by decide)
  have scores : b.scores (fun _ => 0) = [infinity, infinity] := by
    rw [← hb]
    decide +kernel
  obtain ⟨least, -, pad, set⟩ := vectors [nan, 1, 3, 3]
  have chosen : Values.firstMaximum [nan, 1, 3, 3] = 2 := by decide
  have number : ∃ x ∈ ([nan, 1, 3, 3] : Values), x.isNaN = false := ⟨1, by simp, by decide⟩
  rw [chosen] at least pad set
  refine ⟨b, reachable, least number,
    pad _ _ (Values.padded_insertIdx (k := 2) (by decide) (x := nan) (by decide)) number,
    set 3 2 3 rfl (by decide) (by decide),
    (bandits b reachable _).greatest ⟨infinity, by simp [scores], by decide⟩,
    (testbeds ⟨[.gaussian nan 1, .bernoulli 1, .gaussian 0 1]⟩).1
      ⟨1, by simp [Testbed.means, Distribution.mean], by decide⟩⟩

end UpperConfidence
