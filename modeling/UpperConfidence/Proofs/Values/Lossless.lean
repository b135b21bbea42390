import UpperConfidence.Proofs.Double.Arithmetic
import UpperConfidence.Proofs.Values.Placement

/-!
# Placing loses nothing

Values find their places unless there is another number of places, or a place outside the
vector. At different places each value can be read back, up to the sign of a zero, and all the
other entries are zeros. So it makes no difference in which order the values are placed, and
an entry that is infinite or not a number stays where it is put.
-/

namespace UpperConfidence.Values

open Double

/-- A value, with the positive zero for the negative one. -/
def unsignedZero (x : Float) : Float := if x = negZero then 0 else x

theorem zero_add_eq (x : Float) : 0 + x = unsignedZero x := by
  unfold unsignedZero
  split
  · next same => rw [same, add_negZero]
  · next other => exact zero_add_of_ne other

/-- `i` is the first position that is not below `n`. -/
def FirstOutside (n : ℕ) (positions : List ℕ) (i : ℕ) : Prop :=
  ∃ before after, positions = before ++ i :: after ∧ (∀ j ∈ before, j < n) ∧ n ≤ i

theorem find?_outside_eq_some_iff {n : ℕ} {positions : List ℕ} {i : ℕ} :
    positions.find? (n ≤ ·) = some i ↔ FirstOutside n positions i := by
  rw [List.find?_eq_some_iff_append, FirstOutside]
  simp only [decide_eq_true_eq, Bool.not_eq_true', decide_eq_false_iff_not, not_le]
  constructor
  · rintro ⟨outside, before, after, split, inside⟩
    exact ⟨before, after, split, inside, outside⟩
  · rintro ⟨before, after, split, inside, outside⟩
    exact ⟨outside, before, after, split, inside⟩

theorem find?_outside_eq_none_iff {n : ℕ} {positions : List ℕ} :
    positions.find? (n ≤ ·) = none ↔ ∀ i ∈ positions, i < n := by
  simp [List.find?_eq_none]

variable {xs : Values} {positions : List ℕ} {n : ℕ}

theorem place_of_length_ne (other : xs.length ≠ positions.length) :
    xs.place positions n = .error (.shapeMismatch .positions xs.length positions.length) := by
  rw [place, requireLength_of_ne other]
  rfl

theorem place_of_outside (length : xs.length = positions.length) {i : ℕ}
    (outside : FirstOutside n positions i) :
    xs.place positions n = .error (.indexOutOfRange i n) := by
  simp only [place, requireLength, if_pos length, find?_outside_eq_some_iff.mpr outside]
  rfl

/-- All that can become of values and their positions. -/
theorem place_cases (xs : Values) (positions : List ℕ) (n : ℕ) :
    (xs.length ≠ positions.length ∧
      xs.place positions n = .error (.shapeMismatch .positions xs.length positions.length)) ∨
    (xs.length = positions.length ∧ ∃ i, FirstOutside n positions i ∧
      xs.place positions n = .error (.indexOutOfRange i n)) ∨
    (xs.length = positions.length ∧ (∀ i ∈ positions, i < n) ∧
      xs.place positions n = .ok (scatter n (xs.zip positions))) := by
  by_cases length : xs.length = positions.length
  · refine .inr ?_
    cases found : positions.find? (n ≤ ·) with
    | some i =>
      have outside := find?_outside_eq_some_iff.mp found
      exact .inl ⟨length, i, outside, place_of_outside length outside⟩
    | none =>
      have inside := find?_outside_eq_none_iff.mp found
      exact .inr ⟨length, inside, place_eq_ok length inside⟩
  · exact .inl ⟨length, place_of_length_ne length⟩

theorem place_eq_error_iff {cause : Rejection} : xs.place positions n = .error cause ↔
    (xs.length ≠ positions.length ∧
      cause = .shapeMismatch .positions xs.length positions.length) ∨
    (xs.length = positions.length ∧ ∃ i, FirstOutside n positions i ∧
      cause = .indexOutOfRange i n) := by
  constructor
  · intro failed
    rcases place_cases xs positions n with ⟨other, eq⟩ | ⟨length, i, outside, eq⟩ | ⟨-, -, eq⟩
    · exact .inl ⟨other, Except.error.inj (failed.symm.trans eq)⟩
    · exact .inr ⟨length, i, outside, Except.error.inj (failed.symm.trans eq)⟩
    · cases eq.symm.trans failed
  · rintro (⟨other, rfl⟩ | ⟨length, i, outside, rfl⟩)
    · exact place_of_length_ne other
    · exact place_of_outside length outside

theorem place_eq_ok_iff {ys : Values} : xs.place positions n = .ok ys ↔
    xs.length = positions.length ∧ (∀ i ∈ positions, i < n) ∧
      ys = scatter n (xs.zip positions) := by
  constructor
  · intro placed
    rcases place_cases xs positions n with ⟨-, eq⟩ | ⟨-, i, -, eq⟩ | ⟨length, inside, eq⟩
    · cases eq.symm.trans placed
    · cases eq.symm.trans placed
    · exact ⟨length, inside, Except.ok.inj (placed.symm.trans eq)⟩
  · rintro ⟨length, inside, rfl⟩
    exact place_eq_ok length inside

/-! ## Signed positions -/

/-- Placement with positions that are signed 64-bit integers, and with nothing to do where there
are none. -/
def placeSigned (xs : Values) (positions : List ℕ) (n : ℕ) : Except Rejection Values := do
  requireLength .positions xs.length positions.length
  match positions.find? (n ≤ ·) with
  | some i => throw (.indexOutOfRange i n)
  | none =>
    if positions.isEmpty then return zeros n
    return scatter n (xs.zip (positions.map fun i => (Int64.ofNat i).toInt.toNat))

/-- A position in a vector that fits into memory is the same as a signed integer. -/
theorem toInt_ofNat_of_lt {i : ℕ} (h : i < 2 ^ 63) : (Int64.ofNat i).toInt.toNat = i := by
  rw [Int64.toInt_ofNat_of_lt h, Int.toNat_natCast]

theorem placeSigned_eq_place (small : n ≤ 2 ^ 63) :
    xs.placeSigned positions n = xs.place positions n := by
  unfold placeSigned place
  cases found : positions.find? (n ≤ ·) with
  | some i => rfl
  | none =>
    have inside := find?_outside_eq_none_iff.mp found
    have same : positions.map (fun i => (Int64.ofNat i).toInt.toNat) = positions := by
      rw [List.map_congr_left fun i mem => toInt_ofNat_of_lt ((inside i mem).trans_le small),
        List.map_id']
    rw [same]
    cases positions with
    | nil => rw [List.zip_nil_right, scatter_nil, List.isEmpty_nil, if_pos rfl]
    | cons i positions => rfl

/-! ## Reading back -/

/-- In what order values are put at different positions makes no difference. -/
theorem scatter_perm {placed placed' : List (Float × ℕ)} (nodup : (placed.map Prod.snd).Nodup)
    (perm : placed'.Perm placed) : scatter n placed' = scatter n placed := by
  have nodup' : (placed'.map Prod.snd).Nodup := (perm.map Prod.snd).nodup_iff.mpr nodup
  refine List.ext_getElem? fun i => ?_
  by_cases hi : i < n
  · by_cases taken : i ∈ placed.map Prod.snd
    · obtain ⟨⟨x, j⟩, mem, rfl⟩ := List.mem_map.mp taken
      rw [getElem?_scatter_of_mem hi nodup mem,
        getElem?_scatter_of_mem hi nodup' (perm.mem_iff.mpr mem)]
    · have free : i ∉ placed'.map Prod.snd := fun h => taken ((perm.map Prod.snd).mem_iff.mp h)
      rw [getElem?_scatter_of_notMem hi taken, getElem?_scatter_of_notMem hi free]
  · rw [List.getElem?_eq_none (by simpa using hi), List.getElem?_eq_none (by simpa using hi)]

/-- `ys` has the values of `xs` at their positions, and zeros at all others. -/
structure HoldsAt (xs : Values) (positions : List ℕ) (ys : Values) : Prop where
  entry : ∀ (k i : ℕ) (x : Float), positions[k]? = some i → xs[k]? = some x →
    ys[i]? = some (unsignedZero x)
  free : ∀ i < ys.length, i ∉ positions → ys[i]? = some 0
  /-- Reading at the positions gives the values. -/
  read : positions.map (ys[·]?) = xs.map fun x => some (unsignedZero x)
  /-- Nothing is lost or there more than once. -/
  all : ys.Perm (xs.map unsignedZero ++ zeros (ys.length - xs.length))

theorem getElem?_scatter_of_position (length : xs.length = positions.length)
    (inside : ∀ i ∈ positions, i < n) (nodup : positions.Nodup) {k i : ℕ} {x : Float}
    (position : positions[k]? = some i) (value : xs[k]? = some x) :
    (scatter n (xs.zip positions))[i]? = some (unsignedZero x) := by
  have placed : (x, i) ∈ xs.zip positions :=
    List.mem_of_getElem? (List.getElem?_zip_eq_some.mpr ⟨value, position⟩)
  have distinct : ((xs.zip positions).map Prod.snd).Nodup := by
    rwa [List.map_snd_zip length.ge]
  rw [← zero_add_eq]
  exact getElem?_scatter_of_mem (inside i (List.mem_of_getElem? position)) distinct placed

theorem getElem?_scatter_of_free (length : xs.length = positions.length) {i : ℕ} (hi : i < n)
    (free : i ∉ positions) : (scatter n (xs.zip positions))[i]? = some 0 := by
  apply getElem?_scatter_of_notMem hi
  rwa [List.map_snd_zip length.ge]

/-- The positions below `n` are the given ones and those that are left free. -/
theorem perm_range_of_positions (inside : ∀ i ∈ positions, i < n) (nodup : positions.Nodup) :
    (List.range n).Perm (positions ++ (List.range n).filter (· ∉ positions)) := by
  have disjoint : List.Disjoint positions ((List.range n).filter (· ∉ positions)) := by
    intro i taken free
    simp only [List.mem_filter, decide_eq_true_eq] at free
    exact free.2 taken
  have nodup' := nodup.append (List.nodup_range.filter (· ∉ positions)) disjoint
  rw [List.perm_ext_iff_of_nodup List.nodup_range nodup']
  intro i
  simp only [List.mem_append, List.mem_filter, List.mem_range, decide_eq_true_eq]
  constructor
  · intro hi
    by_cases taken : i ∈ positions
    · exact .inl taken
    · exact .inr ⟨hi, taken⟩
  · rintro (taken | ⟨hi, -⟩)
    · exact inside i taken
    · exact hi

theorem map_getElem?_range (ys : Values) : (List.range ys.length).map (ys[·]?) = ys.map some := by
  apply List.ext_getElem (by simp)
  intro i hi hi'
  rw [List.getElem_map, List.getElem_map, List.getElem_range, List.getElem?_eq_getElem]

/-- A vector that has given values at some positions and zeros at all others has nothing else. -/
theorem perm_of_read {ys : Values} (inside : ∀ i ∈ positions, i < ys.length)
    (nodup : positions.Nodup) {zs : Values} (read : positions.map (ys[·]?) = zs.map some)
    (free : ∀ i < ys.length, i ∉ positions → ys[i]? = some 0) :
    ys.Perm (zs ++ zeros (ys.length - zs.length)) := by
  have split := perm_range_of_positions inside nodup
  obtain ⟨rest, hrest⟩ : ∃ rest, (List.range ys.length).filter (· ∉ positions) = rest := ⟨_, rfl⟩
  rw [hrest] at split
  have places : positions.length = zs.length := by simpa using congrArg List.length read
  have count : ys.length - zs.length = rest.length := by
    have := split.length_eq
    rw [List.length_range, List.length_append] at this
    omega
  have zero : rest.map (ys[·]?) = (zeros rest.length).map some := by
    rw [zeros, List.map_replicate, List.eq_replicate_iff]
    refine ⟨List.length_map _, fun entry mem => ?_⟩
    obtain ⟨i, here, rfl⟩ := List.mem_map.mp mem
    rw [← hrest, List.mem_filter, List.mem_range] at here
    exact free i here.1 (by simpa using here.2)
  -- the entries in the order of the vector, and the given positions before the free ones
  rw [← List.map_perm_map_iff (Option.some_injective Float), ← map_getElem?_range, List.map_append,
    count, ← zero, ← read, ← List.map_append]
  exact split.map _

theorem holdsAt_scatter (length : xs.length = positions.length) (inside : ∀ i ∈ positions, i < n)
    (nodup : positions.Nodup) : HoldsAt xs positions (scatter n (xs.zip positions)) := by
  have entry {k i : ℕ} {x : Float} (position : positions[k]? = some i) (value : xs[k]? = some x) :=
    getElem?_scatter_of_position length inside nodup position value
  have free {i : ℕ} (hi : i < n) (free : i ∉ positions) :=
    getElem?_scatter_of_free length hi free
  obtain ⟨ys, hys⟩ : ∃ ys, scatter n (xs.zip positions) = ys := ⟨_, rfl⟩
  obtain rfl : ys.length = n := by rw [← hys, length_scatter]
  rw [hys] at entry free ⊢
  have read : positions.map (ys[·]?) = xs.map fun x => some (unsignedZero x) := by
    apply List.ext_getElem (by simp [length])
    intro k hk hk'
    rw [List.length_map] at hk hk'
    rw [List.getElem_map, List.getElem_map]
    exact entry (List.getElem?_eq_getElem hk) (List.getElem?_eq_getElem hk')
  refine ⟨fun k i x => entry, fun i => free, read, ?_⟩
  have all := perm_of_read inside nodup (read.trans List.map_map.symm) fun i => free
  rwa [List.length_map] at all

/-- Pairs of values and positions may be rearranged. -/
theorem place_of_perm {ys xs' : Values} {positions' : List ℕ} (nodup : positions.Nodup)
    (placed : xs.place positions n = .ok ys) (length' : xs'.length = positions'.length)
    (perm : (xs'.zip positions').Perm (xs.zip positions)) : xs'.place positions' n = .ok ys := by
  obtain ⟨length, inside, rfl⟩ := place_eq_ok_iff.mp placed
  have positions_perm : positions'.Perm positions := by
    have := perm.map Prod.snd
    rwa [List.map_snd_zip length'.ge, List.map_snd_zip length.ge] at this
  have distinct : ((xs.zip positions).map Prod.snd).Nodup := by
    rwa [List.map_snd_zip length.ge]
  rw [place_eq_ok_iff]
  exact ⟨length', fun i mem => inside i (positions_perm.mem_iff.mp mem),
    (scatter_perm distinct perm).symm⟩

/-- Values are placed if and only if there is a position inside the vector for each of them. At
different positions nothing of them is lost, in whatever order they come. -/
theorem placing_is_lossless (xs : Values) (positions : List ℕ) (n : ℕ) :
    (∀ cause, xs.place positions n = .error cause ↔
      (xs.length ≠ positions.length ∧
        cause = .shapeMismatch .positions xs.length positions.length) ∨
      (xs.length = positions.length ∧ ∃ i, FirstOutside n positions i ∧
        cause = .indexOutOfRange i n)) ∧
    ((∃ ys, xs.place positions n = .ok ys) ↔
      xs.length = positions.length ∧ ∀ i ∈ positions, i < n) ∧
    (∀ ys, xs.place positions n = .ok ys → ys.length = n ∧
      (positions.Nodup → HoldsAt xs positions ys ∧
        ∀ (xs' : Values) (positions' : List ℕ), xs'.length = positions'.length →
          (xs'.zip positions').Perm (xs.zip positions) → xs'.place positions' n = .ok ys)) ∧
    (n ≤ 2 ^ 63 → xs.placeSigned positions n = xs.place positions n) := by
  refine ⟨fun cause => place_eq_error_iff, by simp [place_eq_ok_iff], fun ys placed => ?_,
    placeSigned_eq_place⟩
  obtain ⟨length, inside, rfl⟩ := place_eq_ok_iff.mp placed
  exact ⟨length_scatter n _, fun nodup => ⟨holdsAt_scatter length inside nodup,
    fun xs' positions' => place_of_perm nodup placed⟩⟩

/-- A value that is not a number and a negative zero, in either order. -/
theorem placing_is_lossless_of_two : ∃ ys,
    Values.place [nan, negZero] [3, 0] 5 = .ok ys ∧ HoldsAt [nan, negZero] [3, 0] ys ∧
    Values.place [negZero, nan] [0, 3] 5 = .ok ys ∧
    Values.placeSigned [nan, negZero] [3, 0] 5 = .ok ys := by
  obtain ⟨-, succeeds, effect, signed⟩ := placing_is_lossless [nan, negZero] [3, 0] 5
  obtain ⟨ys, placed⟩ := succeeds.mpr ⟨rfl, by decide⟩
  obtain ⟨-, lossless⟩ := effect ys placed
  obtain ⟨holds, perm⟩ := lossless (by decide)
  exact ⟨ys, placed, holds, perm [negZero, nan] [0, 3] rfl (.swap _ _ _),
    (signed (by decide)).trans placed⟩

end UpperConfidence.Values
