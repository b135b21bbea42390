import UpperConfidence.Bandit.Basic
import UpperConfidence.Proofs.Arm.Positions

/-!
# Arms and places

An index is made from every list without repeats, and it is a bijection between the arms and
their places. A batch of different known arms is sent to different places, where its arms are
found again, and it is the canonical one if and only if the places are all places in order.
Any other list is rejected: for its first repeated arm if there is one, or else for its first
unknown arm.
-/

namespace UpperConfidence

/-- `x` is the first element of a list that equals an earlier one. -/
def FirstRepeated (xs : List α) (x : α) : Prop :=
  ∃ before after, xs = before ++ x :: after ∧ before.Nodup ∧ x ∈ before

/-- `x` is the first element of a list that is not in `known`. -/
def FirstUnknown (known xs : List α) (x : α) : Prop :=
  ∃ before after, xs = before ++ x :: after ∧ before ⊆ known ∧ x ∉ known

/-- The search for a repeat finds the first one. -/
theorem firstRepeat_eq_some_iff [DecidableEq α] {xs : List α} {x : α} :
    firstRepeat xs = some x ↔ FirstRepeated xs x := by
  constructor
  · intro found
    have repeated : ¬ xs.Nodup := by
      rw [← firstRepeat_eq_none_iff, found]
      simp
    obtain ⟨before, y, after, rfl, nodup, mem⟩ := exists_first_repeat repeated
    rw [firstRepeat_append after nodup mem] at found
    obtain rfl := Option.some_inj.mp found
    exact ⟨before, after, rfl, nodup, mem⟩
  · rintro ⟨before, after, rfl, nodup, mem⟩
    exact firstRepeat_append after nodup mem

theorem requireDistinct_eq_error_iff {ids : List ArmId} {cause : Rejection} :
    requireDistinct ids = .error cause ↔
      ∃ arm, FirstRepeated ids arm ∧ cause = .duplicateArm arm := by
  simp only [← firstRepeat_eq_some_iff]
  unfold requireDistinct
  cases firstRepeat ids <;> simp [eq_comm]

/-! ## The places of arms -/

/-- `places` are where the arms of a batch are found in `ids`, in the order of the batch. -/
structure ArePlaces (ids arms : List ArmId) (places : List ℕ) : Prop where
  length : places.length = arms.length
  entry : ∀ k i : ℕ, places[k]? = some i → ids[i]? = arms[k]?
  nodup : places.Nodup
  bound : ∀ i ∈ places, i < ids.length

theorem arePlaces_map_idxOf {ids arms : List ArmId} (nodup : arms.Nodup) (known : arms ⊆ ids) :
    ArePlaces ids arms (arms.map ids.idxOf) where
  length := List.length_map _
  entry k i found := by
    rw [List.getElem?_map, Option.map_eq_some_iff] at found
    obtain ⟨arm, here, rfl⟩ := found
    rw [here, List.getElem?_idxOf (known (List.mem_of_getElem? here))]
  nodup := nodup.map_on fun _ ha _ _ same => (List.idxOf_inj (known ha)).mp same
  bound i mem := by
    obtain ⟨arm, here, rfl⟩ := List.mem_map.mp mem
    exact List.idxOf_lt_length_of_mem (known here)

theorem map_idxOf_self {ids : List ArmId} (nodup : ids.Nodup) :
    ids.map ids.idxOf = List.range ids.length := by
  apply List.ext_getElem (by simp)
  intro i hi _
  rw [List.getElem_map, List.getElem_range]
  exact nodup.idxOf_getElem i (by simpa using hi)

/-- A rearrangement of all arms has all places, rearranged. -/
theorem map_idxOf_perm {ids arms : List ArmId} (nodup : ids.Nodup) (perm : arms.Perm ids) :
    (arms.map ids.idxOf).Perm (List.range ids.length) := by
  rw [← map_idxOf_self nodup]
  exact perm.map ids.idxOf

/-- Only the arms in order have all places in order. -/
theorem ArePlaces.arms_eq {ids arms : List ArmId}
    (h : ArePlaces ids arms (List.range ids.length)) : ids = arms := by
  have length : ids.length = arms.length := by simpa using h.length
  refine List.ext_getElem? fun k => ?_
  by_cases hk : k < ids.length
  · exact h.entry k k (List.getElem?_range hk)
  · rw [List.getElem?_eq_none (not_lt.mp hk), List.getElem?_eq_none (length ▸ not_lt.mp hk)]

/-! ## Indices -/

namespace ArmIndex

theorem ofList_eq_error_iff {ids : List ArmId} {cause : Rejection} :
    ofList ids = .error cause ↔ ∃ arm, FirstRepeated ids arm ∧ cause = .duplicateArm arm := by
  rw [← requireDistinct_eq_error_iff, ofList_eq]
  cases requireDistinct ids <;> simp [Except.map]

theorem exists_ofList_iff {ids : List ArmId} :
    (∃ index, ofList ids = .ok index) ↔ ids.Nodup := by
  simp [ofList_eq_ok_iff]

variable {index : ArmIndex}

/-- An arm has a place if and only if it is there. -/
theorem Sound.position_eq_ok_iff_getElem? (h : index.Sound) {arm : ArmId} {i : ℕ} :
    index.position arm = .ok i ↔ index.ids[i]? = some arm := by
  rw [position_eq_ok_iff, h.lookup_eq_some_iff]

/-- All that can become of a batch of arms. -/
theorem Sound.positions_cases (h : index.Sound) (arms : List ArmId) :
    (arms.Nodup ∧ arms ⊆ index.ids ∧ index.positions arms = .ok (arms.map index.ids.idxOf)) ∨
    (∃ arm, FirstRepeated arms arm ∧ index.positions arms = .error (.duplicateArm arm)) ∨
    (arms.Nodup ∧ ∃ arm, FirstUnknown index.ids arms arm ∧
      index.positions arms = .error (.unknownArm arm index.ids)) := by
  by_cases nodup : arms.Nodup
  · by_cases known : arms ⊆ index.ids
    · exact .inl ⟨nodup, known, h.positions_of_known nodup known⟩
    · obtain ⟨before, arm, after, rfl, unknown, known⟩ := exists_first_unknown known
      exact .inr (.inr ⟨nodup, arm, ⟨before, after, rfl, known, unknown⟩,
        h.positions_of_unknown nodup known unknown⟩)
  · obtain ⟨before, arm, after, rfl, nodup, mem⟩ := exists_first_repeat nodup
    exact .inr (.inl ⟨arm, ⟨before, after, rfl, nodup, mem⟩,
      positions_of_repeated after nodup mem⟩)

theorem Sound.exists_positions_iff (h : index.Sound) {arms : List ArmId} :
    (∃ places, index.positions arms = .ok places) ↔ arms.Nodup ∧ arms ⊆ index.ids := by
  constructor
  · rintro ⟨places, found⟩
    rcases h.positions_cases arms with ⟨nodup, known, -⟩ | ⟨arm, -, failed⟩ | ⟨-, arm, -, failed⟩
    · exact ⟨nodup, known⟩
    · cases failed.symm.trans found
    · cases failed.symm.trans found
  · rintro ⟨nodup, known⟩
    exact ⟨_, h.positions_of_known nodup known⟩

theorem Sound.positions_eq_ok (h : index.Sound) {arms : List ArmId} {places : List ℕ}
    (found : index.positions arms = .ok places) :
    arms.Nodup ∧ arms ⊆ index.ids ∧ places = arms.map index.ids.idxOf := by
  obtain ⟨nodup, known⟩ := h.exists_positions_iff.mp ⟨places, found⟩
  rw [h.positions_of_known nodup known, Except.ok.injEq] at found
  exact ⟨nodup, known, found.symm⟩

/-- A repeated arm is reported before an unknown one. -/
theorem Sound.positions_eq_error_iff (h : index.Sound) {arms : List ArmId} {cause : Rejection} :
    index.positions arms = .error cause ↔
      (∃ arm, FirstRepeated arms arm ∧ cause = .duplicateArm arm) ∨
      (arms.Nodup ∧ ∃ arm, FirstUnknown index.ids arms arm ∧
        cause = .unknownArm arm index.ids) := by
  constructor
  · intro failed
    rcases h.positions_cases arms with
      ⟨-, -, found⟩ | ⟨arm, repeated, failed'⟩ | ⟨nodup, arm, unknown, failed'⟩
    · cases found.symm.trans failed
    · exact .inl ⟨arm, repeated, Except.error.inj (failed.symm.trans failed')⟩
    · exact .inr ⟨nodup, arm, unknown, Except.error.inj (failed.symm.trans failed')⟩
  · rintro (⟨arm, ⟨before, after, rfl, nodup, mem⟩, rfl⟩ |
      ⟨nodup, arm, ⟨before, after, rfl, known, unknown⟩, rfl⟩)
    · exact positions_of_repeated after nodup mem
    · exact h.positions_of_unknown nodup known unknown

/-- The canonical batch is the one with all places in order. -/
theorem Sound.isCanonical_iff_positions (h : index.Sound) {arms : List ArmId} :
    index.isCanonical arms ↔ index.positions arms = .ok (List.range index.ids.length) := by
  rw [isCanonical_iff]
  constructor
  · rintro rfl
    rw [h.positions_of_known h.nodup (List.Subset.refl _), map_idxOf_self h.nodup]
  · intro found
    obtain ⟨nodup, known, all⟩ := h.positions_eq_ok found
    have places := arePlaces_map_idxOf nodup known
    rw [← all] at places
    exact places.arms_eq

end ArmIndex

/-! ## New bandits -/

/-- A set of arms is rejected if it is empty or has an arm twice. -/
theorem Arms.resolve_eq_error_iff {arms : Arms} {cause : Rejection} :
    arms.resolve = .error cause ↔ arms.toList = [] ∧ cause = .noArms ∨
      ∃ arm, FirstRepeated arms.toList arm ∧ cause = .duplicateArm arm := by
  rw [← requireDistinct_eq_error_iff, resolve_eq]
  by_cases empty : arms.toList = []
  · have distinct : requireDistinct [] = .ok () := rfl
    simp [empty, distinct, eq_comm]
  · cases requireDistinct arms.toList <;> simp [empty, Except.map]

/-- An accepted set has its arms once each, so that there is an index for them. -/
theorem Arms.ofList_of_resolve {arms : Arms} {ids : List ArmId} (h : arms.resolve = .ok ids) :
    ArmIndex.ofList ids = .ok ⟨ids, ids.zipIdx⟩ := by
  obtain ⟨-, nodup, rfl⟩ := Arms.resolve_eq_ok_iff.mp h
  exact ArmIndex.ofList_eq_ok_iff.mpr ⟨nodup, rfl⟩

theorem Bandit.create_eq_error_iff {config : Config} {cause : Rejection} :
    create config = .error cause ↔ config.arms.resolve = .error cause := by
  unfold create
  cases resolved : config.arms.resolve with
  | error => simp [bind, Except.bind]
  | ok ids => simp [Arms.ofList_of_resolve resolved, bind, Except.bind, pure, Except.pure]

open ArmIndex in
/-- Lists without repeats have an index, sets of arms without repeats that are not empty have a
bandit, and an index sends the arms to their places and back. -/
theorem index_is_partial_bijection :
    (∀ ids, ((∃ index, ofList ids = .ok index) ↔ ids.Nodup) ∧
      ∀ cause, ofList ids = .error cause ↔
        ∃ arm, FirstRepeated ids arm ∧ cause = .duplicateArm arm) ∧
    (∀ config : Config,
      (∀ cause, Bandit.create config = .error cause ↔
        (config.arms = .count 0 ∨ config.arms = .listed []) ∧ cause = .noArms ∨
        ∃ arm, FirstRepeated config.arms.toList arm ∧ cause = .duplicateArm arm) ∧
      ∀ ids, config.arms.resolve = .ok ids → ∃ index, ofList ids = .ok index) ∧
    (∀ ids index, ofList ids = .ok index →
      (∀ arm i, index.position arm = .ok i ↔ ids[i]? = some arm) ∧
      ∀ arms,
        ((∃ places, index.positions arms = .ok places) ↔ arms.Nodup ∧ arms ⊆ ids) ∧
        (∀ places, index.positions arms = .ok places → ArePlaces ids arms places ∧
          (arms.Perm ids → places.Perm (List.range ids.length))) ∧
        (index.isCanonical arms ↔ index.positions arms = .ok (List.range ids.length)) ∧
        (∀ cause, index.positions arms = .error cause ↔
          (∃ arm, FirstRepeated arms arm ∧ cause = .duplicateArm arm) ∨
          (arms.Nodup ∧ ∃ arm, FirstUnknown ids arms arm ∧ cause = .unknownArm arm ids))) := by
  refine ⟨fun ids => ⟨exists_ofList_iff, fun cause => ofList_eq_error_iff⟩,
    fun config => ⟨fun cause => ?_, fun ids resolved => ⟨_, Arms.ofList_of_resolve resolved⟩⟩,
    fun ids index indexed => ?_⟩
  · rw [Bandit.create_eq_error_iff, Arms.resolve_eq_error_iff, Arms.toList_eq_nil_iff]
  · obtain ⟨sound, rfl⟩ := sound_of_ofList indexed
    refine ⟨fun arm i => sound.position_eq_ok_iff_getElem?, fun arms =>
      ⟨sound.exists_positions_iff, fun places found => ?_, sound.isCanonical_iff_positions,
        fun cause => sound.positions_eq_error_iff⟩⟩
    obtain ⟨nodup, known, rfl⟩ := sound.positions_eq_ok found
    exact ⟨arePlaces_map_idxOf nodup known, map_idxOf_perm sound.nodup⟩

/-- A rearrangement of all arms, and a list in which an unknown arm is repeated. -/
theorem index_is_partial_bijection_of_three : ∃ index,
    ArmIndex.ofList [.name "a", .name "b", .ofInt 7] = .ok index ∧
    (∃ places, index.positions [.ofInt 7, .name "a", .name "b"] = .ok places ∧
      places.Perm (List.range 3)) ∧
    index.positions [.name "z", .name "b", .name "z"] = .error (.duplicateArm (.name "z")) := by
  obtain ⟨built, -, places⟩ := index_is_partial_bijection
  obtain ⟨index, indexed⟩ := (built [.name "a", .name "b", .ofInt 7]).1.mpr (by decide)
  obtain ⟨-, batches⟩ := places _ index indexed
  obtain ⟨found, effect, -⟩ := batches [.ofInt 7, .name "a", .name "b"]
  obtain ⟨-, -, -, failed⟩ := batches [.name "z", .name "b", .name "z"]
  obtain ⟨all, resolved⟩ := found.mpr ⟨by decide, by decide⟩
  refine ⟨index, indexed, ⟨all, resolved, (effect all resolved).2 (by decide)⟩, ?_⟩
  have repeated : FirstRepeated [ArmId.name "z", .name "b", .name "z"] (.name "z") :=
    ⟨[.name "z", .name "b"], [], rfl, by decide, by decide⟩
  exact (failed _).mpr (.inl ⟨_, repeated, rfl⟩)

end UpperConfidence
