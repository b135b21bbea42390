import UpperConfidence.Bandit.Operation
import UpperConfidence.Proofs.Arm.Positions
import UpperConfidence.Proofs.Values.Addend
import UpperConfidence.Proofs.Values.Placement

/-!
# Assignments of values to arms

A vector together with the arms that it names assigns values to arms. Spread
over all arms in order, with zero for those that are not named, it is what the
totals grow by: placing the values at the positions of their arms has the same
effect, and so has taking the vector as it is when it names all arms in order.
-/

namespace UpperConfidence

/-! ## Vectors -/

namespace Values

/-- The value of each arm in `ids`, where `xs` has the values of the arms in
`named` and all others have zero. -/
def spread (ids named : List ArmId) (xs : Values) : Values :=
  ids.map fun arm => ((named.zip xs).lookup arm).getD 0

theorem lookup_zip_of_mem {named : List ArmId} {xs : Values} (nodup : named.Nodup) {arm : ArmId}
    {x : Float} (h : (arm, x) ∈ named.zip xs) : (named.zip xs).lookup arm = some x := by
  induction named generalizing xs with
  | nil => simp at h
  | cons other named ih =>
    obtain ⟨new, nodup⟩ := List.nodup_cons.mp nodup
    cases xs with
    | nil => simp at h
    | cons y xs =>
      rw [List.zip_cons_cons] at h ⊢
      rcases List.mem_cons.mp h with same | later
      · obtain ⟨rfl, rfl⟩ := Prod.mk.inj same
        exact List.lookup_cons_self
      · have differs : (arm == other) = false := by
          rw [beq_eq_false_iff_ne]
          rintro rfl
          exact new (List.of_mem_zip later).1
        rw [List.lookup_cons, differs]
        exact ih nodup later

theorem lookup_zip_eq_some_iff {named : List ArmId} {xs : Values} (nodup : named.Nodup)
    {arm : ArmId} {x : Float} :
    (named.zip xs).lookup arm = some x ↔ (arm, x) ∈ named.zip xs := by
  refine ⟨fun found => ?_, lookup_zip_of_mem nodup⟩
  obtain ⟨before, after, eq, -⟩ := List.lookup_eq_some_iff.mp found
  rw [eq]
  simp

theorem lookup_zip_getElem {named : List ArmId} {xs : Values} (nodup : named.Nodup) {k : Nat}
    (hk : k < named.length) (hx : k < xs.length) :
    (named.zip xs).lookup named[k] = some xs[k] := by
  apply lookup_zip_of_mem nodup
  rw [← List.getElem_zip (h := by simpa using ⟨hk, hx⟩)]
  exact List.getElem_mem _

theorem lookup_zip_of_notMem {named : List ArmId} {xs : Values} {arm : ArmId} (h : arm ∉ named) :
    (named.zip xs).lookup arm = none := by
  rw [List.lookup_eq_none_iff]
  intro p hp
  rw [bne_iff_ne]
  rintro rfl
  exact h (List.of_mem_zip hp).1

@[simp] theorem length_spread (ids named : List ArmId) (xs : Values) :
    (spread ids named xs).length = ids.length := by simp [spread]

theorem spread_self {ids : List ArmId} {xs : Values} (nodup : ids.Nodup)
    (length : xs.length = ids.length) : spread ids ids xs = xs := by
  apply List.ext_getElem (by simp [length])
  intro i hi hx
  have hi : i < ids.length := by simpa using hi
  simp only [spread, List.getElem_map]
  rw [lookup_zip_getElem nodup hi hx]
  rfl

/-- Placed values add the same as spread ones. -/
theorem scatter_sameAddends {ids named : List ArmId} {xs : Values} (nodup : named.Nodup)
    (distinct : ids.Nodup) (known : named ⊆ ids) (length : xs.length = named.length) :
    SameAddends (scatter ids.length (xs.zip (named.map ids.idxOf))) (spread ids named xs) := by
  have snd : (xs.zip (named.map ids.idxOf)).map Prod.snd = named.map ids.idxOf :=
    List.map_snd_zip (by simp [length])
  have positions : ((xs.zip (named.map ids.idxOf)).map Prod.snd).Nodup := by
    rw [snd]
    refine nodup.map_on fun a ha b hb same => ?_
    exact (List.idxOf_inj (known ha)).mp same
  rw [SameAddends, List.forall₂_iff_get]
  refine ⟨by simp, fun i hi hs => ?_⟩
  have hi : i < ids.length := by simpa using hi
  rw [List.get_eq_getElem, List.get_eq_getElem]
  simp only [spread, List.getElem_map]
  by_cases mem : ids[i] ∈ named
  · obtain ⟨k, hk, same⟩ := List.getElem_of_mem mem
    have hx : k < xs.length := by omega
    have here : (xs[k], i) ∈ xs.zip (named.map ids.idxOf) := by
      rw [List.mem_iff_getElem]
      refine ⟨k, by simp [length, hk], ?_⟩
      simp [same, distinct.idxOf_getElem]
    have entry := getElem?_scatter_of_mem hi positions here
    rw [List.getElem?_eq_getElem (by simpa using hi), Option.some_inj] at entry
    rw [entry, ← same, lookup_zip_getElem nodup hk hx]
    exact sameAddend_zero_add _
  · have absent : i ∉ (xs.zip (named.map ids.idxOf)).map Prod.snd := by
      rw [snd, List.mem_map]
      rintro ⟨arm, hm, rfl⟩
      simp [List.getElem_idxOf, hm] at mem
    have entry := getElem?_scatter_of_notMem hi absent
    rw [List.getElem?_eq_getElem (by simpa using hi), Option.some_inj] at entry
    rw [entry, lookup_zip_of_notMem mem]
    exact .refl 0

end Values

/-! ## Contributions -/

namespace Contribution

/-- Every vector has one entry for each of `n` arms. -/
structure HasLength (c : Contribution) (n : Nat) : Prop where
  counts : c.counts.length = n
  rewards : c.rewards.length = n
  squares : ∀ qs ∈ c.squares, qs.length = n

/-- Contributions that add the same. -/
structure Same (c d : Contribution) : Prop where
  counts : Values.SameAddends c.counts d.counts
  rewards : Values.SameAddends c.rewards d.rewards
  squares : Option.Rel Values.SameAddends c.squares d.squares

/-- By how much the number of observations grows. -/
def observed (c : Contribution) : UInt64 := c.counts.laneSum.toUInt64

/-- A contribution of the arms in `named`, spread over all arms. -/
def spread (ids named : List ArmId) (c : Contribution) : Contribution where
  counts := c.counts.spread ids named
  rewards := c.rewards.spread ids named
  squares := c.squares.map (Values.spread ids named)

variable {c d : Contribution} {ids named : List ArmId}

theorem Same.refl (c : Contribution) : c.Same c where
  counts := .refl _
  rewards := .refl _
  squares := by
    cases c.squares with
    | none => exact .none
    | some qs => exact .some (.refl qs)

theorem Same.restrict (h : c.Same d) (a : Algorithm) : (c.restrict a).Same (d.restrict a) where
  counts := h.counts
  rewards := h.rewards
  squares := by
    unfold Contribution.restrict
    split
    · exact h.squares
    · exact .none

/-- Contributions that add the same count the same number of observations. -/
theorem observed_congr (same : c.Same d) : c.observed = d.observed := by
  rw [observed, observed, Values.laneSum_congr same.counts]

/-- Squares are on both sides, for the same number of arms. -/
theorem Same.exists_squares (same : c.Same d) {qs : Values} (given : d.squares = some qs) :
    ∃ added, c.squares = some added ∧ added.length = qs.length := by
  have rel := same.squares
  rw [given] at rel
  cases squares : c.squares with
  | none =>
    rw [squares] at rel
    cases rel
  | some added =>
    rw [squares] at rel
    cases rel with
    | some rel => exact ⟨added, rfl, rel.length_eq⟩

theorem spread_self (nodup : ids.Nodup) (length : c.HasLength ids.length) :
    c.spread ids ids = c := by
  obtain ⟨counts, rewards, squares⟩ := c
  obtain ⟨hc, hr, hq⟩ := length
  simp only [spread, Values.spread_self nodup hc, Values.spread_self nodup hr]
  cases squares with
  | none => rfl
  | some qs => rw [Option.map_some, Values.spread_self nodup (hq qs rfl)]

/-- Contributions of different known arms can be placed, and then add the same as spread. -/
theorem place_eq_ok (distinct : ids.Nodup) (nodup : named.Nodup) (known : named ⊆ ids)
    (length : c.HasLength named.length) :
    ∃ d, c.place (named.map ids.idxOf) ids.length = .ok d ∧ d.Same (c.spread ids named) := by
  have bound : ∀ i ∈ named.map ids.idxOf, i < ids.length := by
    simp only [List.mem_map]
    rintro _ ⟨arm, mem, rfl⟩
    exact List.idxOf_lt_length_of_mem (known mem)
  have placed {xs : Values} (h : xs.length = named.length) :
      xs.place (named.map ids.idxOf) ids.length =
        .ok (Values.scatter ids.length (xs.zip (named.map ids.idxOf))) :=
    Values.place_eq_ok (by simp [h]) bound
  have same {xs : Values} (h : xs.length = named.length) :=
    Values.scatter_sameAddends nodup distinct known h
  obtain ⟨counts, rewards, squares⟩ := c
  obtain ⟨hc, hr, hq⟩ := length
  simp only [place, placed hc, placed hr]
  cases squares with
  | none => exact ⟨_, rfl, same hc, same hr, .none⟩
  | some qs =>
    simp only [Option.mapM_some, placed (hq qs rfl)]
    exact ⟨_, rfl, same hc, same hr, .some (same (hq qs rfl))⟩

end Contribution

/-! ## Totals -/

namespace Stats

/-- No total is a negative zero. -/
structure Proper (s : Stats) : Prop where
  counts : s.counts.Proper
  rewards : s.rewards.Proper
  squares : ∀ qs ∈ s.squares, qs.Proper

@[simp] theorem isSome_addSquares (kept added : Option Values) :
    (addSquares kept added).isSome = kept.isSome := by
  cases kept <;> cases added <;> rfl

theorem of_mem_addSquares {kept added : Option Values} {qs : Values}
    (h : qs ∈ addSquares kept added) :
    ∃ old ∈ kept, qs = old ∨ ∃ new ∈ added, qs = old.add new := by
  cases kept with
  | none => cases h
  | some old =>
    cases added with
    | none => exact ⟨old, rfl, .inl (Option.some_inj.mp h).symm⟩
    | some new => exact ⟨old, rfl, .inr ⟨new, rfl, (Option.some_inj.mp h).symm⟩⟩

theorem addSquares_congr {kept cs ds : Option Values} (proper : ∀ qs ∈ kept, qs.Proper)
    (same : Option.Rel Values.SameAddends cs ds) : addSquares kept cs = addSquares kept ds := by
  cases same with
  | none => rfl
  | some h =>
    cases kept with
    | none => rfl
    | some qs => exact congrArg some (Values.add_congr (proper qs rfl) h)

/-- The totals after a contribution that does not overflow. -/
def grow (s : Stats) (c : Contribution) : Stats where
  total := s.total + c.observed
  counts := s.counts.add c.counts
  rewards := s.rewards.add c.rewards
  squares := addSquares s.squares c.squares

/-- Nothing can go wrong but that there are too many observations, and this is found out
before any of the totals has changed. -/
theorem exec_accumulate (s : Stats) (c : Contribution) :
    (accumulate c).exec s = if s.total.toNat + c.observed.toNat < 2 ^ 64 then (.ok (), s.grow c)
      else (.error .countOverflow, s) := by
  rw [accumulate, ← Contribution.observed, Procedure.exec_bind_of_ok (Procedure.exec_get s)]
  have counting := Procedure.exec_liftM (addCount s.total c.observed) s
  by_cases room : s.total.toNat + c.observed.toNat < 2 ^ 64
  · have counted : addCount s.total c.observed = .ok (s.total + c.observed) := if_pos room
    rw [counted] at counting ⊢
    rw [Procedure.exec_bind_of_ok counting, if_pos room]
    simp only [Procedure.exec_bind, Procedure.exec_modify, grow]
  · have full : addCount s.total c.observed = .error .countOverflow := if_neg room
    rw [full] at counting ⊢
    rw [Procedure.exec_bind_of_error counting, if_neg room]

/-- Contributions that add the same leave the same totals. -/
theorem grow_congr {s : Stats} (proper : s.Proper) {c d : Contribution} (same : c.Same d) :
    s.grow c = s.grow d := by
  rw [grow, grow, Contribution.observed_congr same, Values.add_congr proper.counts same.counts,
    Values.add_congr proper.rewards same.rewards, addSquares_congr proper.squares same.squares]

end Stats

namespace Bandit

variable {b : Bandit} {c : Contribution}

theorem align_canonical {arms : Option (List ArmId)} (h : arms.getD b.ids = b.ids) :
    b.align arms c = (requireLength .counts b.size c.counts.length).map fun _ => c := by
  have direct : arms.filter (!b.index.isCanonical ·) = none := by
    cases arms with
    | none => rfl
    | some ids =>
      have listed : b.index.isCanonical ids = true := ArmIndex.isCanonical_iff.mpr (Eq.symm h)
      simp [listed]
  rw [align, direct]
  cases requireLength .counts b.size c.counts.length <;> rfl

theorem align_named {ids : List ArmId} (h : ids ≠ b.ids) :
    b.align (some ids) c = (do
      let positions ← b.index.positions ids
      requireLength .counts ids.length c.counts.length
      c.place positions b.size) := by
  have given : (some ids).filter (!b.index.isCanonical ·) = some ids := by
    have unlisted : b.index.isCanonical ids = false := by
      rw [← Bool.not_eq_true, ArmIndex.isCanonical_iff]
      exact Ne.symm h
    simp [unlisted]
  rw [align, given]

/-- Vectors for different known arms are brought into vectors over all arms that
add the same as the spread ones. -/
theorem align_eq_ok (sound : b.index.Sound) {arms : Option (List ArmId)}
    (nodup : (arms.getD b.ids).Nodup) (known : arms.getD b.ids ⊆ b.ids)
    (length : c.HasLength (arms.getD b.ids).length) :
    ∃ d, b.align arms c = .ok d ∧ d.Same (c.spread b.ids (arms.getD b.ids)) := by
  have distinct : b.ids.Nodup := sound.nodup
  by_cases all : arms.getD b.ids = b.ids
  · rw [all] at length ⊢
    have fits : requireLength .counts b.size c.counts.length = .ok () :=
      requireLength_eq_ok_iff.mpr length.counts.symm
    refine ⟨c, ?_, ?_⟩
    · rw [align_canonical all, fits]
      rfl
    · rw [Contribution.spread_self distinct length]
      exact .refl c
  · cases arms with
    | none => exact absurd rfl all
    | some named =>
      have other : named ≠ b.ids := all
      obtain ⟨d, placed, same⟩ := Contribution.place_eq_ok distinct nodup known length
      refine ⟨d, ?_, same⟩
      have resolved : b.index.positions named = .ok (named.map b.ids.idxOf) :=
        sound.positions_of_known nodup known
      have fits : requireLength .counts named.length c.counts.length = .ok () :=
        requireLength_eq_ok_iff.mpr length.counts.symm
      rw [align_named other, resolved]
      simp only [bind, Except.bind, fits]
      exact placed

end Bandit

end UpperConfidence
