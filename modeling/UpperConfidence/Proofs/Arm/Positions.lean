import Mathlib
import UpperConfidence.Arm.Index

/-!
# Positions in an index

The table of an index sends every arm to its place and holds no other arm. A
batch of arms is therefore resolved if its arms are different and known; else
the first repeated arm is reported, or the first unknown one if none is repeated.
-/

namespace UpperConfidence

/-! ## First offenders -/

section FirstRepeat

variable [DecidableEq α]

theorem firstRepeatAfter_append {seen pre : List α} {x : α} (post : List α) (nodup : pre.Nodup)
    (new : ∀ y ∈ pre, y ∉ seen) (mem : x ∈ seen ∨ x ∈ pre) :
    firstRepeatAfter seen (pre ++ x :: post) = some x := by
  induction pre generalizing seen with
  | nil =>
    have known : x ∈ seen := by simpa using mem
    simp [firstRepeatAfter, known]
  | cons y pre ih =>
    rw [List.nodup_cons] at nodup
    rw [List.cons_append, firstRepeatAfter, if_neg (new y (by simp))]
    apply ih nodup.2
    · intro z hz known
      rcases List.mem_cons.mp known with rfl | known
      · exact nodup.1 hz
      · exact new z (by simp [hz]) known
    · rcases mem with known | here
      · exact .inl (by simp [known])
      · rcases List.mem_cons.mp here with rfl | later
        · exact .inl (by simp)
        · exact .inr later

/-- The first repeat is the element that follows a part without repeats and is in it. -/
theorem firstRepeat_append {pre : List α} {x : α} (post : List α) (nodup : pre.Nodup)
    (mem : x ∈ pre) : firstRepeat (pre ++ x :: post) = some x :=
  firstRepeatAfter_append post nodup (by simp) (.inr mem)

theorem exists_first_repeat {xs : List α} (h : ¬ xs.Nodup) :
    ∃ pre x post, xs = pre ++ x :: post ∧ pre.Nodup ∧ x ∈ pre := by
  induction xs using List.reverseRecOn with
  | nil => exact absurd List.nodup_nil h
  | append_singleton xs x ih =>
    by_cases nodup : xs.Nodup
    · refine ⟨xs, x, [], rfl, nodup, ?_⟩
      by_contra new
      exact h (by simpa [List.nodup_append, nodup] using fun a ha => ne_of_mem_of_not_mem ha new)
    · obtain ⟨pre, y, post, rfl, found⟩ := ih nodup
      exact ⟨pre, y, post ++ [x], by simp, found⟩

end FirstRepeat

theorem exists_first_unknown {known xs : List ArmId} (h : ¬ xs ⊆ known) :
    ∃ pre x post, xs = pre ++ x :: post ∧ x ∉ known ∧ pre ⊆ known := by
  induction xs with
  | nil => exact absurd (List.nil_subset _) h
  | cons x xs ih =>
    by_cases here : x ∈ known
    · have later : ¬ xs ⊆ known := fun sub => h (List.cons_subset.mpr ⟨here, sub⟩)
      obtain ⟨pre, y, post, rfl, unknown, sub⟩ := ih later
      exact ⟨x :: pre, y, post, rfl, unknown, List.cons_subset.mpr ⟨here, sub⟩⟩
    · exact ⟨[], x, xs, rfl, here, List.nil_subset _⟩

/-- Of different arms, one is the given one. -/
theorem sum_indicator {ids : List ArmId} (nodup : ids.Nodup) {arm : ArmId} (mem : arm ∈ ids) :
    (ids.map fun other => if other = arm then 1 else 0).sum = 1 := by
  rw [List.sum_map_ite]
  simp only [List.map_const', List.sum_replicate, smul_eq_mul, mul_one, mul_zero, add_zero]
  rw [← List.countP_eq_length_filter]
  exact List.count_eq_one_of_mem nodup mem

/-! ## Resolution -/

namespace ArmIndex

/-- The arms are different and the table has the place of each of them. -/
structure Sound (index : ArmIndex) : Prop where
  nodup : index.ids.Nodup
  table : index.table = index.ids.zipIdx

theorem sound_of_ofList {ids : List ArmId} {index : ArmIndex} (h : ofList ids = .ok index) :
    index.Sound ∧ index.ids = ids := by
  obtain ⟨nodup, rfl⟩ := ofList_eq_ok_iff.mp h
  exact ⟨⟨nodup, rfl⟩, rfl⟩

variable {index : ArmIndex}

/-- The arms determine the table. -/
theorem Sound.index_eq {other : ArmIndex} (h : index.Sound) (h' : other.Sound)
    (ids : index.ids = other.ids) : index = other := by
  have tables : index.table = other.table := by rw [h.table, h'.table, ids]
  cases index
  cases other
  simp_all

theorem Sound.lookup_eq_some_iff (h : index.Sound) {arm : ArmId} {i : Nat} :
    index.table.lookup arm = some i ↔ index.ids[i]? = some arm := by
  have places : index.table.lookup arm = index.ids.idxOf? arm := by
    rw [h.table, lookup_zipIdx]
    exact Option.map_id'
  rw [places, List.idxOf?_eq_some_iff, List.getElem?_eq_some_iff]
  constructor
  · rintro ⟨hi, here, -⟩
    exact ⟨hi, here⟩
  · rintro ⟨hi, rfl⟩
    refine ⟨hi, rfl, fun j hj same => ?_⟩
    have := (h.nodup.getElem_inj_iff).mp same
    omega

theorem Sound.position_of_mem (h : index.Sound) {arm : ArmId} (mem : arm ∈ index.ids) :
    index.position arm = .ok (index.ids.idxOf arm) := by
  rw [position_eq_ok_iff, h.lookup_eq_some_iff]
  exact List.getElem?_idxOf mem

theorem Sound.position_of_notMem (h : index.Sound) {arm : ArmId} (unknown : arm ∉ index.ids) :
    index.position arm = .error (.unknownArm arm index.ids) := by
  have none : index.table.lookup arm = none := by
    rw [Option.eq_none_iff_forall_ne_some]
    intro i found
    exact unknown (List.mem_of_getElem? (h.lookup_eq_some_iff.mp found))
  simp [position, none]

theorem mapM_position_of_known (h : index.Sound) {arms : List ArmId} (known : arms ⊆ index.ids) :
    arms.mapM index.position = .ok (arms.map index.ids.idxOf) := by
  induction arms with
  | nil => rfl
  | cons arm arms ih =>
    obtain ⟨here, later⟩ := List.cons_subset.mp known
    simp [List.mapM_cons, h.position_of_mem here, ih later, bind, Except.bind, pure, Except.pure]

theorem positions_of_repeated {pre : List ArmId} {arm : ArmId} (post : List ArmId)
    (nodup : pre.Nodup) (mem : arm ∈ pre) :
    index.positions (pre ++ arm :: post) = .error (.duplicateArm arm) := by
  simp [positions, requireDistinct, firstRepeat_append post nodup mem, bind, Except.bind]

theorem Sound.positions_of_known (h : index.Sound) {arms : List ArmId} (nodup : arms.Nodup)
    (known : arms ⊆ index.ids) : index.positions arms = .ok (arms.map index.ids.idxOf) := by
  rw [positions, requireDistinct_eq_ok_iff.mpr nodup]
  exact mapM_position_of_known h known

theorem Sound.positions_of_unknown (h : index.Sound) {pre post : List ArmId} {arm : ArmId}
    (nodup : (pre ++ arm :: post).Nodup) (known : pre ⊆ index.ids) (unknown : arm ∉ index.ids) :
    index.positions (pre ++ arm :: post) = .error (.unknownArm arm index.ids) := by
  rw [positions, requireDistinct_eq_ok_iff.mpr nodup]
  simp [List.mapM_append, List.mapM_cons, mapM_position_of_known h known,
    h.position_of_notMem unknown, bind, Except.bind]

end ArmIndex

end UpperConfidence
