import UpperConfidence.Proofs.Bandit.Disjoint
import UpperConfidence.Proofs.Bandit.Lockstep
import UpperConfidence.Proofs.Score.Formula
import UpperConfidence.Proofs.Values.FirstMaximum

/-!
# The order of the arms

The order in which the arms of a bandit are declared is a presentation. Operations
that name their arms do the same to a bandit whose arms are declared in another order:
each arm keeps its own totals, and they grow by the same values. A batch that covers
all arms in order for one bandit names them in another order for the other one, so
what one takes as it is the other one has to place, and the sum of the counts is taken
in another order. That sum is the same if it is exact, and so are the scores then.
-/

namespace UpperConfidence

/-! ## Vectors in another order -/

namespace Values

variable {ids ids' named : List ArmId} {xs ys : Values}

theorem lookup_spread (nodup : ids.Nodup) {arm : ArmId} (mem : arm ∈ ids) :
    (ids.zip (spread ids named xs)).lookup arm = some (((named.zip xs).lookup arm).getD 0) := by
  obtain ⟨k, hk, rfl⟩ := List.getElem_of_mem mem
  rw [lookup_zip_getElem nodup hk (by simpa using hk)]
  simp [spread]

/-- A reordered vector has the same for every arm. -/
theorem lookup_reordered (nodup : ids.Nodup) (perm : ids.Perm ids') (length : xs.length = ids.length)
    (arm : ArmId) : (ids'.zip (spread ids' ids xs)).lookup arm = (ids.zip xs).lookup arm := by
  by_cases mem : arm ∈ ids
  · rw [lookup_spread (perm.nodup_iff.mp nodup) (perm.mem_iff.mp mem)]
    obtain ⟨k, hk, rfl⟩ := List.getElem_of_mem mem
    rw [lookup_zip_getElem nodup hk (length ▸ hk), Option.getD_some]
  · rw [lookup_zip_of_notMem mem, lookup_zip_of_notMem fun mem' => mem (perm.mem_iff.mpr mem')]

theorem spread_spread (nodup : ids.Nodup) (sub : ids' ⊆ ids) :
    spread ids' ids (spread ids named xs) = spread ids' named xs := by
  refine List.map_congr_left fun arm mem => ?_
  rw [lookup_spread nodup (sub mem), Option.getD_some]

theorem spread_add (nodup : ids.Nodup) (sub : ids' ⊆ ids) (hx : xs.length = ids.length)
    (hy : ys.length = ids.length) :
    spread ids' ids (xs.add ys) = (spread ids' ids xs).add (spread ids' ids ys) := by
  rw [spread, spread, spread, add, add, List.zipWith_map, List.zipWith_self]
  refine List.map_congr_left fun arm mem => ?_
  obtain ⟨k, hk, rfl⟩ := List.getElem_of_mem (sub mem)
  have kx : k < xs.length := hx ▸ hk
  have ky : k < ys.length := hy ▸ hk
  rw [lookup_zip_getElem nodup hk kx, lookup_zip_getElem nodup hk ky,
    lookup_zip_getElem nodup hk (by simpa using ⟨kx, ky⟩)]
  simp

theorem spread_zeros (nodup : ids.Nodup) (sub : ids' ⊆ ids) :
    spread ids' ids (zeros ids.length) = zeros ids'.length := by
  refine List.eq_replicate_iff.mpr ?_
  refine ⟨by simp, fun x hx => ?_⟩
  obtain ⟨arm, mem, rfl⟩ := List.mem_map.mp hx
  obtain ⟨k, hk, rfl⟩ := List.getElem_of_mem (sub mem)
  rw [lookup_zip_getElem nodup hk (by simpa using hk)]
  simp [zeros]

end Values

/-! ## Endings -/

/-- Endings that are the same up to the order in which the known arms are listed. -/
inductive SameEnding : Except Failure Unit → Except Failure Unit → Prop
  | refl (ending : Except Failure Unit) : SameEnding ending ending
  | unknown (arm : ArmId) {known known' : List ArmId} (perm : known.Perm known') :
      SameEnding (.error (.rejected (.unknownArm arm known)))
        (.error (.rejected (.unknownArm arm known')))

/-- The operation names its arms, even if it has values for all of them. -/
def Operation.Addressed : Operation → Prop
  | .batch given => given.arms.isSome
  | .single .. => True

namespace Bandit

variable {b b' : Bandit} {op : Operation} {batch : Batch}

/-- The second bandit has the arms of the first one in some order, and the same totals for
each of them. -/
structure Reordered (b b' : Bandit) : Prop where
  wf : b.WellFormed
  wf' : b'.WellFormed
  perm : b.ids.Perm b'.ids
  algorithm : b'.algorithm = b.algorithm
  columns : ∀ col, b'.stats.column col = (b.stats.column col).map (Values.spread b'.ids b.ids)

theorem names_of_addressed (addressed : op.Addressed) (b b' : Bandit) : b'.names op = b.names op := by
  cases op with
  | single arm reward => rfl
  | batch batch =>
    obtain ⟨ids, given⟩ := Option.isSome_iff_exists.mp addressed
    simp [names, named, given]

namespace Reordered

theorem symm (h : Reordered b b') : Reordered b' b where
  wf := h.wf'
  wf' := h.wf
  perm := h.perm.symm
  algorithm := h.algorithm.symm
  columns col := by
    rw [h.columns col, Option.map_map]
    cases given : b.stats.column col with
    | none => rfl
    | some xs =>
      have length := length_of_mem_column h.wf given
      simp only [Option.map_some, Function.comp_apply]
      rw [Values.spread_spread h.wf'.nodup h.perm.subset, Values.spread_self h.wf.nodup length]

/-- New bandits over the same arms. -/
theorem of_create {config config' : Config} (created : create config = .ok b)
    (created' : create config' = .ok b') (perm : b.ids.Perm b'.ids)
    (algorithm : b'.algorithm = b.algorithm) : Reordered b b' := by
  obtain ⟨wf, -, -⟩ := wellFormed_of_create created
  obtain ⟨wf', -, -⟩ := wellFormed_of_create created'
  have zeros := Values.spread_zeros wf.nodup perm.symm.subset
  refine ⟨wf, wf', perm, algorithm, fun col => ?_⟩
  rw [stats_of_create created, stats_of_create created', algorithm]
  cases col with
  | squares => cases b.algorithm.tracksVariance with
    | false => rfl
    | true => exact congrArg some zeros.symm
  | _ => exact congrArg some zeros.symm

/-! ## What is in the way -/

/-- What is in the way of a batch that names its arms is in the way for either order. -/
theorem obstacle (h : Reordered b b') (addressed : batch.arms.isSome) {k : ℕ} {cause : Rejection}
    (found : Obstacle b batch k (.rejected cause)) :
    ∃ cause', Obstacle b' batch k (.rejected cause') ∧
      SameEnding (.error (.rejected cause)) (.error (.rejected cause')) := by
  cases found with
  | missingSquares tuned missing =>
    exact ⟨_, .missingSquares (h.algorithm.trans tuned) missing, .refl _⟩
  | rewards h => exact ⟨_, .rewards h, .refl _⟩
  | squares given h => exact ⟨_, .squares given h, .refl _⟩
  | @repeated pre post arm given _ nodup mem =>
    have other : pre ++ arm :: post ≠ b'.ids := by
      intro all
      have distinct := h.wf'.nodup
      rw [← all] at distinct
      exact List.disjoint_of_nodup_append distinct mem List.mem_cons_self
    exact ⟨_, .repeated given other nodup mem, .refl _⟩
  | @unknown pre post arm given _ known new =>
    have new' : arm ∉ b'.ids := fun mem => new (h.perm.mem_iff.mpr mem)
    have other : pre ++ arm :: post ≠ b'.ids := by
      intro all
      rw [← all] at new'
      simp at new'
    exact ⟨_, .unknown given other (List.Subset.trans known h.perm.subset) new', .unknown arm h.perm⟩
  | counts h =>
    have explicit : Operation.Addressed (.batch batch) := addressed
    have same : b'.named batch = b.named batch := names_of_addressed explicit b b'
    rw [← same] at h ⊢
    exact ⟨_, .counts h, .refl _⟩

theorem clear (h : Reordered b b') (addressed : batch.arms.isSome) {k : ℕ} (hk : k ≤ 7)
    (clear : ∀ j < k, ∀ e, ¬ Obstacle b batch j e) : ∀ j < k, ∀ e, ¬ Obstacle b' batch j e := by
  intro j hj e found
  cases e with
  | fault cause =>
    obtain ⟨rfl, -, -⟩ := obstacle_fault found
    omega
  | rejected cause =>
    obtain ⟨cause', found', -⟩ := h.symm.obstacle addressed found
    exact clear j hj _ found'

/-- Both bandits reject an operation, for the same cause, or neither does. -/
theorem contribution (h : Reordered b b') (addressed : op.Addressed) :
    (∃ cause cause', b.contribution op = .error cause ∧ b'.contribution op = .error cause' ∧
      SameEnding (.error (.rejected cause)) (.error (.rejected cause'))) ∨
    ∃ c c', b.contribution op = .ok c ∧ b'.contribution op = .ok c' := by
  cases op with
  | single arm reward =>
    by_cases known : arm ∈ b.ids
    · obtain ⟨c, contributed, -⟩ := contribution_single h.wf.toReady known reward
      obtain ⟨c', contributed', -⟩ :=
        contribution_single h.wf'.toReady (h.perm.mem_iff.mp known) reward
      exact .inr ⟨c, c', contributed, contributed'⟩
    · have known' : arm ∉ b'.ids := fun mem => known (h.perm.mem_iff.mpr mem)
      exact .inl ⟨_, _, contribution_single_of_unknown h.wf.toReady known,
        contribution_single_of_unknown h.wf'.toReady known', .unknown arm h.perm⟩
  | batch batch =>
    by_cases free : ∀ j < 7, ∀ e, ¬ Obstacle b batch j e
    · obtain ⟨c, contributed, -⟩ := contribution_of_clear h.wf.toReady free
      obtain ⟨c', contributed', -⟩ :=
        contribution_of_clear h.wf'.toReady (h.clear addressed le_rfl free)
      exact .inr ⟨c, c', contributed, contributed'⟩
    · simp only [not_forall, not_not] at free
      obtain ⟨j, hj, e, found⟩ := free
      obtain ⟨k, e, first, before⟩ := exists_first_obstacle ⟨j, e, found⟩
      have hk : k ≤ j := by
        by_contra later
        exact before j (not_le.mp later) _ found
      cases e with
      | fault cause =>
        obtain ⟨rfl, -, -⟩ := obstacle_fault first
        omega
      | rejected cause =>
        obtain ⟨cause', first', same⟩ := h.obstacle addressed first
        exact .inl ⟨cause, cause', contribution_of_obstacle h.wf.toReady first before,
          contribution_of_obstacle h.wf'.toReady first' (h.clear addressed (by omega) before), same⟩

/-! ## Steps -/

theorem column_spread (h : Reordered b b') (addressed : op.Addressed) (place : b.Placeable op)
    {col : Column} (kept : b.algorithm.keeps col = true) :
    ∃ ys, (b.spread op).column col = some ys ∧ ys.length = b.ids.length ∧
      (b'.spread op).column col = some (Values.spread b'.ids b.ids ys) := by
  obtain ⟨vs, given, -⟩ := place.exists_values kept
  refine ⟨_, column_spread_of_values kept given, Values.length_spread _ _ _, ?_⟩
  rw [← h.algorithm] at kept given
  rw [column_spread_of_values kept given, names_of_addressed addressed b b',
    Values.spread_spread h.wf.nodup h.perm.symm.subset]

/-- Operations that both bandits accept leave them with the same totals for each arm. -/
theorem step_of_accepted (h : Reordered b b') (addressed : op.Addressed) {b₁ b₁' : Bandit}
    (accepted : b.step op = (b₁, .ok ())) (accepted' : b'.step op = (b₁', .ok ())) :
    Reordered b₁ b₁' := by
  have wf := h.wf.step op
  have wf' := h.wf'.step op
  rw [accepted] at wf
  rw [accepted'] at wf'
  obtain ⟨c, contributed⟩ := exists_contribution accepted
  have place := placeable_of_contribution h.wf.toReady contributed
  obtain ⟨-, rfl⟩ := grow_of_accepted h.wf.toReady accepted
  obtain ⟨-, rfl⟩ := grow_of_accepted h.wf'.toReady accepted'
  refine ⟨wf, wf', h.perm, h.algorithm, fun col => ?_⟩
  rw [Stats.column_grow, Stats.column_grow, h.columns col]
  cases given : b.stats.column col with
  | none => rfl
  | some xs =>
    obtain ⟨ys, added, length, added'⟩ := h.column_spread addressed place (keeps_of_mem h.wf given)
    rw [added, added']
    exact congrArg some (Values.spread_add h.wf.nodup h.perm.symm.subset
      (length_of_mem_column h.wf given) length).symm

/-- Steps that do not overflow end in the same way. -/
theorem step (h : Reordered b b') (addressed : op.Addressed)
    (room : (b.step op).2 ≠ .error (.fault .countOverflow))
    (room' : (b'.step op).2 ≠ .error (.fault .countOverflow)) :
    Reordered (b.step op).1 (b'.step op).1 ∧ SameEnding (b.step op).2 (b'.step op).2 := by
  rcases h.contribution addressed with ⟨cause, cause', rejected, rejected', same⟩ |
    ⟨c, c', contributed, contributed'⟩
  · rw [step_of_rejected rejected, step_of_rejected rejected']
    exact ⟨h, same⟩
  · have first := step_of_contribution contributed
    have second := step_of_contribution contributed'
    split at first
    · split at second
      · refine ⟨h.step_of_accepted addressed ?_ ?_, ?_⟩ <;> simp [first, second, SameEnding.refl]
      · simp [second] at room'
    · simp [first] at room

/-- Operations that neither bandit accepts are refused for the same cause. -/
theorem ending (h : Reordered b b') (addressed : op.Addressed) {e e' : Failure}
    (refused : b.step op = (b, .error e)) (refused' : b'.step op = (b', .error e')) :
    SameEnding (.error e) (.error e') := by
  rcases h.contribution addressed with ⟨cause, cause', rejected, rejected', same⟩ |
    ⟨c, c', contributed, contributed'⟩
  · rw [step_of_rejected rejected] at refused
    rw [step_of_rejected rejected'] at refused'
    obtain rfl := Except.error.inj (Prod.mk.inj refused).2
    obtain rfl := Except.error.inj (Prod.mk.inj refused').2
    exact same
  · have overflow {b : Bandit} {c : Contribution} {e : Failure} (hc : b.contribution op = .ok c)
        (refused : b.step op = (b, .error e)) : e = .fault .countOverflow := by
      rw [step_of_contribution hc] at refused
      split at refused <;> simp_all
    rw [overflow contributed refused, overflow contributed' refused']
    exact .refl _

/-- As long as no step overflows, the arms keep the same totals. -/
theorem forall₂_steps (h : Reordered b b') {ops : List Operation}
    (addressed : ∀ op ∈ ops, op.Addressed)
    (room : ∀ p ∈ b.steps ops, p.2 ≠ .error (.fault .countOverflow))
    (room' : ∀ p ∈ b'.steps ops, p.2 ≠ .error (.fault .countOverflow)) :
    List.Forall₂ (fun p q => Reordered p.1 q.1 ∧ SameEnding p.2 q.2) (b.steps ops)
      (b'.steps ops) := by
  induction ops generalizing b b' with
  | nil => exact .nil
  | cons op ops ih =>
    simp only [steps, List.forall_mem_cons] at addressed room room'
    have first := h.step addressed.1 room.1 room'.1
    exact .cons first (ih first.1 addressed.2 room.2 room'.2)

end Reordered

/-! ## Counts that are summed exactly -/

theorem accepted_of_ok {b₁ : Bandit} (accepted : b.step op = (b₁, .ok ())) (ops : List Operation) :
    b.accepted ((op :: ops).map .operation) = op :: b₁.accepted (ops.map .operation) := by
  simp [Bandit.accepted, Activity.accepted, perform, apply_eq_ok_iff.mpr accepted, accepted]

theorem accepted_of_error {e : Failure} (refused : b.step op = (b, .error e))
    (ops : List Operation) :
    b.accepted ((op :: ops).map .operation) = b.accepted (ops.map .operation) := by
  simp [Bandit.accepted, Activity.accepted, perform, apply_eq_error_of_step refused, refused]

/-- Reordered bandits whose counts are natural numbers that add up to `m`. -/
structure Mirrored (b b' : Bandit) (m : ℕ) : Prop extends Reordered b b' where
  tallied : b.Tallied m
  tallied' : b'.Tallied m

namespace Mirrored

variable {m : ℕ}

theorem symm (h : Mirrored b b' m) : Mirrored b' b m := ⟨h.toReordered.symm, h.tallied', h.tallied⟩

theorem total (h : Mirrored b b' m) : b'.stats.total = b.stats.total := by
  rw [← UInt64.toNat_inj, h.tallied.total, h.tallied'.total]

/-- There is room for what one of the bandits accepts in the other one as well. -/
theorem exists_step (h : Mirrored b b' m) (addressed : op.Addressed) {b₁ : Bandit}
    (accepted : b.step op = (b₁, .ok ())) {k : ℕ} (counts : op.counts.Counting k)
    (bound : m + k ≤ 2 ^ 53) : ∃ b₁', b'.step op = (b₁', .ok ()) ∧ Mirrored b₁ b₁' (m + k) := by
  obtain ⟨c, contributed⟩ := exists_contribution accepted
  rcases h.contribution addressed with ⟨cause, -, rejected, -⟩ | ⟨-, c', -, contributed'⟩
  · simp [rejected] at contributed
  · have ready := h.wf'.toReady
    have place := placeable_of_contribution ready contributed'
    have observed := place.observed ready counts (by omega)
    have room : b'.stats.total.toNat + (b'.spread op).observed.toNat < 2 ^ 64 := by
      rw [observed, h.tallied'.total]
      omega
    have accepted' := step_of_fits ready contributed' (same_of_contribution ready contributed') room
    exact ⟨_, accepted', h.step_of_accepted addressed accepted accepted',
      h.tallied.step h.wf accepted counts bound, h.tallied'.step h.wf' accepted' counts bound⟩

/-- As long as what both bandits accept is counted exactly, they agree on how every step ends. -/
theorem forall₂_steps (h : Mirrored b b' m) {ops : List Operation}
    (addressed : ∀ op ∈ ops, op.Addressed) {n n' : ℕ}
    (counts : Values.Counting ((b.accepted (ops.map .operation)).flatMap Operation.counts) n)
    (bound : m + n ≤ 2 ^ 53)
    (counts' : Values.Counting ((b'.accepted (ops.map .operation)).flatMap Operation.counts) n')
    (bound' : m + n' ≤ 2 ^ 53) :
    List.Forall₂ (fun p q => (∃ m, Mirrored p.1 q.1 m) ∧ SameEnding p.2 q.2) (b.steps ops)
      (b'.steps ops) := by
  induction ops generalizing b b' m n n' with
  | nil => exact .nil
  | cons op ops ih =>
    obtain ⟨here, later⟩ := List.forall_mem_cons.mp addressed
    rcases step_cases h.wf.toReady op with ⟨e, refused⟩ | ⟨-, accepted⟩
    · rcases step_cases h.wf'.toReady op with ⟨e', refused'⟩ | ⟨-, accepted'⟩
      · rw [accepted_of_error refused] at counts
        rw [accepted_of_error refused'] at counts'
        rw [steps, steps, refused, refused']
        exact .cons ⟨⟨m, h⟩, h.ending here refused refused'⟩ (ih h later counts bound counts' bound')
      · -- What the second bandit accepts the first one has room for, so it cannot refuse it alone.
        rw [accepted_of_ok accepted', List.flatMap_cons] at counts'
        obtain ⟨k, l, head, -, rfl⟩ := Values.counting_append_iff.mp counts'
        obtain ⟨b₁, accepted, -⟩ := h.symm.exists_step here accepted' head (by omega)
        simp [refused] at accepted
    · rw [accepted_of_ok accepted, List.flatMap_cons] at counts
      obtain ⟨k, l, head, tail, rfl⟩ := Values.counting_append_iff.mp counts
      obtain ⟨b₁', accepted', h'⟩ := h.exists_step here accepted head (by omega)
      rw [accepted_of_ok accepted', List.flatMap_cons] at counts'
      obtain ⟨k', l', head', tail', rfl⟩ := Values.counting_append_iff.mp counts'
      -- It is the same operation for both, so it adds the same number to either total.
      obtain rfl := head.unique head'
      rw [steps, steps, accepted, accepted']
      exact .cons ⟨⟨_, h'⟩, .refl _⟩ (ih h' later tail (by omega) tail' (by omega))

end Mirrored

/-! ## What can be read off -/

/-- What a vector over all arms has for one of them. -/
def entryOf (b : Bandit) (arm : ArmId) (xs : Values) : Option Float := (b.ids.zip xs).lookup arm

/-- Each arm has the same totals, wherever it stands. -/
structure SameTotals (b b' : Bandit) : Prop where
  columns : ∀ col arm,
    (b.stats.column col).map (b.entryOf arm) = (b'.stats.column col).map (b'.entryOf arm)
  averages : ∀ arm, b.entryOf arm b.averages = b'.entryOf arm b'.averages

/-- Nothing but the order of the arms tells the bandits apart, and the order matters for the choice
only if several arms have the greatest score. -/
structure SameByArm (b b' : Bandit) : Prop extends SameTotals b b' where
  total : b.stats.total = b'.stats.total
  scores : ∀ ln arm, b.entryOf arm (b.scores ln) = b'.entryOf arm (b'.scores ln)
  action : ∀ ln arm x, b.entryOf arm (b.scores ln) = some x → x.isNaN = false →
    (∀ other y, other ≠ arm → b.entryOf other (b.scores ln) = some y → y.isNaN = false → y < x) →
    b.action ln = .ok arm ∧ b'.action ln = .ok arm

theorem entryOf_eq_of_getElem? (wf : b.WellFormed) {i : ℕ} {arm : ArmId} {xs : Values} {x : Float}
    (place : b.ids[i]? = some arm) (entry : xs[i]? = some x) : b.entryOf arm xs = some x := by
  obtain ⟨hi, rfl⟩ := List.getElem?_eq_some_iff.mp place
  obtain ⟨hx, rfl⟩ := List.getElem?_eq_some_iff.mp entry
  exact Values.lookup_zip_getElem wf.nodup hi hx

theorem entryOf_of_notMem {arm : ArmId} (unknown : arm ∉ b.ids) (xs : Values) :
    b.entryOf arm xs = none := Values.lookup_zip_of_notMem unknown

/-- An arm whose score is greater than all other scores is chosen. -/
theorem action_of_greatest (wf : b.WellFormed) {ln : Float → Float} {arm : ArmId} {x : Float}
    (here : b.entryOf arm (b.scores ln) = some x) (number : x.isNaN = false)
    (greatest : ∀ other y, other ≠ arm → b.entryOf other (b.scores ln) = some y →
      y.isNaN = false → y < x) : b.action ln = .ok arm := by
  have length : (b.scores ln).length = b.ids.length := Algorithm.length_scores wf.fits
  have known : arm ∈ b.ids := by
    by_contra unknown
    simp [entryOf_of_notMem unknown] at here
  obtain ⟨i, hi, rfl⟩ := List.getElem_of_mem known
  have place := List.getElem?_eq_getElem hi
  have entry : (b.scores ln)[i]? = some x := by
    rw [List.getElem?_eq_getElem (length ▸ hi)]
    exact (entryOf_eq_of_getElem? wf place (List.getElem?_eq_getElem (length ▸ hi))).symm.trans here
  have chosen : (b.scores ln).firstMaximum = i := by
    refine Values.firstMaximum_of_greatest entry number fun j y differs entry' number' => ?_
    have hj : j < b.ids.length := length ▸ (List.getElem?_eq_some_iff.mp entry').1
    have place' := List.getElem?_eq_getElem hj
    refine greatest b.ids[j] y (fun same => ?_) (entryOf_eq_of_getElem? wf place' entry') number'
    exact differs ((wf.nodup.getElem_inj_iff).mp same)
  obtain ⟨arm', place', action⟩ := wf.action ln
  rw [chosen, place, Option.some_inj] at place'
  rw [action, place']

namespace Reordered

variable (h : Reordered b b')
include h

theorem entryOf_column (col : Column) (arm : ArmId) :
    (b.stats.column col).map (b.entryOf arm) = (b'.stats.column col).map (b'.entryOf arm) := by
  rw [h.columns col, Option.map_map]
  cases given : b.stats.column col with
  | none => rfl
  | some xs =>
    have length := length_of_mem_column h.wf given
    exact congrArg some (Values.lookup_reordered h.wf.nodup h.perm length arm).symm

/-- Every arm has a place in both orders, with the same totals there. -/
theorem exists_places {arm : ArmId} (known : arm ∈ b.ids) :
    ∃ i j : ℕ, b.ids[i]? = some arm ∧ b'.ids[j]? = some arm ∧ i < b.size ∧
      ∀ col, (b.stats.column col).map (·[i]?) = (b'.stats.column col).map (·[j]?) := by
  obtain ⟨i, place⟩ := List.getElem?_of_mem known
  obtain ⟨j, place'⟩ := List.getElem?_of_mem (h.perm.mem_iff.mp known)
  obtain ⟨hi, -⟩ := List.getElem?_eq_some_iff.mp place
  refine ⟨i, j, place, place', hi, fun col => ?_⟩
  rw [h.columns col]
  cases given : b.stats.column col with
  | none => rfl
  | some xs =>
    have hx : i < xs.length := length_of_mem_column h.wf given ▸ hi
    have here : (b.ids.zip xs).lookup arm = some xs[i] :=
      entryOf_eq_of_getElem? h.wf place (List.getElem?_eq_getElem hx)
    simp [Values.spread, place', here, List.getElem?_eq_getElem hx]

theorem sameTotals : SameTotals b b' where
  columns := h.entryOf_column
  averages arm := by
    by_cases known : arm ∈ b.ids
    · obtain ⟨i, j, place, place', hi, same⟩ := h.exists_places known
      obtain ⟨n, s, q, hn, hs, -⟩ := h.wf.exists_entries hi
      have hn' := (Option.some_inj.mp (same .counts)).symm.trans hn
      have hs' := (Option.some_inj.mp (same .rewards)).symm.trans hs
      have here : b.averages[i]? = some (s / n) := by
        simp [averages, Stats.averages, Values.div, List.getElem?_zipWith, hn, hs]
      have there : b'.averages[j]? = some (s / n) := by
        simp [averages, Stats.averages, Values.div, List.getElem?_zipWith, hn', hs']
      rw [entryOf_eq_of_getElem? h.wf place here, entryOf_eq_of_getElem? h.wf' place' there]
    · have unknown : arm ∉ b'.ids := fun mem => known (h.perm.mem_iff.mpr mem)
      rw [entryOf_of_notMem known, entryOf_of_notMem unknown]

theorem entryOf_scores (total : b.stats.total = b'.stats.total) (ln : Float → Float) (arm : ArmId) :
    b.entryOf arm (b.scores ln) = b'.entryOf arm (b'.scores ln) := by
  by_cases known : arm ∈ b.ids
  · obtain ⟨i, j, place, place', hi, same⟩ := h.exists_places known
    obtain ⟨n, s, q, hn, hs, hq⟩ := h.wf.exists_entries hi
    have here := getElem?_scores b.algorithm ln hn hs hq rfl
    have hn' : b'.stats.counts[j]? = some n := (Option.some_inj.mp (same .counts)).symm.trans hn
    have hs' : b'.stats.rewards[j]? = some s := (Option.some_inj.mp (same .rewards)).symm.trans hs
    have hq' : b'.stats.squares.map (·[j]?) = q.map some := (same .squares).symm.trans hq
    have there := getElem?_scores b.algorithm ln hn' hs' hq' rfl
    rw [← total] at there
    rw [scores, scores, h.algorithm, entryOf_eq_of_getElem? h.wf place here,
      entryOf_eq_of_getElem? h.wf' place' there]
  · have unknown : arm ∉ b'.ids := fun mem => known (h.perm.mem_iff.mpr mem)
    rw [entryOf_of_notMem known, entryOf_of_notMem unknown]

theorem sameByArm (total : b.stats.total = b'.stats.total) : SameByArm b b' where
  toSameTotals := h.sameTotals
  total := total
  scores := h.entryOf_scores total
  action ln arm x here number greatest := by
    have scores := h.entryOf_scores total ln
    refine ⟨action_of_greatest h.wf here number greatest, ?_⟩
    simp only [scores] at here greatest
    exact action_of_greatest h.wf' here number greatest

end Reordered

/-- The order in which the arms are declared makes no difference to operations that name their
arms. As long as the counts that are accepted are natural numbers that add up to at most `2 ^ 53`,
all that can be read off is the same arm by arm; whatever the counts are, so are the totals of the
arms, as long as no step overflows. -/
theorem reordered_steps {ids ids' : List ArmId} (nonempty : ids ≠ []) (nodup : ids.Nodup)
    (perm : ids.Perm ids') (a : Algorithm) :
    ∃ b b', create ⟨.listed ids, a⟩ = .ok b ∧ create ⟨.listed ids', a⟩ = .ok b' ∧
      SameByArm b b' ∧ ∀ ops : List Operation, (∀ op ∈ ops, op.Addressed) →
        (∀ n n',
          Values.Counting ((b.accepted (ops.map .operation)).flatMap Operation.counts) n →
          Values.Counting ((b'.accepted (ops.map .operation)).flatMap Operation.counts) n' →
          n ≤ 2 ^ 53 → n' ≤ 2 ^ 53 →
          List.Forall₂ (fun p q => SameByArm p.1 q.1 ∧ SameEnding p.2 q.2) (b.steps ops)
            (b'.steps ops)) ∧
        ((∀ p ∈ b.steps ops, p.2 ≠ .error (.fault .countOverflow)) →
          (∀ p ∈ b'.steps ops, p.2 ≠ .error (.fault .countOverflow)) →
          List.Forall₂ (fun p q => SameTotals p.1 q.1 ∧ SameEnding p.2 q.2) (b.steps ops)
            (b'.steps ops)) := by
  have nonempty' : ids' ≠ [] :=
    List.length_pos_iff.mp (perm.length_eq ▸ List.length_pos_iff.mpr nonempty)
  obtain ⟨b, -, created, -⟩ := exists_create (.listed ids) a nonempty nodup
  obtain ⟨b', -, created', -⟩ :=
    exists_create (.listed ids') a nonempty' (perm.nodup_iff.mp nodup)
  obtain ⟨-, all, algorithm⟩ := wellFormed_of_create created
  obtain ⟨-, all', algorithm'⟩ := wellFormed_of_create created'
  have start : Reordered b b' := by
    refine .of_create created created' ?_ (algorithm'.trans algorithm.symm)
    rw [all, all']
    exact perm
  have mirrored : Mirrored b b' 0 := ⟨start, tallied_of_create created, tallied_of_create created'⟩
  refine ⟨b, b', created, created', start.sameByArm mirrored.total.symm, fun ops addressed =>
    ⟨fun n n' counts counts' bound bound' => ?_, fun room room' => ?_⟩⟩
  · have run := mirrored.forall₂_steps addressed counts (by omega) counts' (by omega)
    refine run.imp fun p q h => ⟨?_, h.2⟩
    obtain ⟨m, h⟩ := h.1
    exact h.sameByArm h.total.symm
  · have run := start.forall₂_steps addressed room room'
    exact run.imp fun p q h => ⟨h.1.sameTotals, h.2⟩

/-- A batch for two arms in the order of the first bandit, an observation and an unknown arm. -/
theorem reordered_steps_of_two_arms : ∃ b b' : Bandit,
    create ⟨.listed [.ofInt 5, .ofInt 3], .tuned⟩ = .ok b ∧
    create ⟨.listed [.ofInt 3, .ofInt 5], .tuned⟩ = .ok b' ∧
    List.Forall₂ (fun p q => SameByArm p.1 q.1 ∧ SameEnding p.2 q.2)
      (b.steps [.batch ⟨[2, 1], [1, 0.5], some [1, 0.25], some [.ofInt 5, .ofInt 3]⟩,
        .single (.ofInt 3) 1, .single (.ofInt 7) 1])
      (b'.steps [.batch ⟨[2, 1], [1, 0.5], some [1, 0.25], some [.ofInt 5, .ofInt 3]⟩,
        .single (.ofInt 3) 1, .single (.ofInt 7) 1]) := by
  obtain ⟨ops, hops⟩ : ∃ ops : List Operation,
      [.batch ⟨[2, 1], [1, 0.5], some [1, 0.25], some [.ofInt 5, .ofInt 3]⟩,
        .single (.ofInt 3) 1, .single (.ofInt 7) 1] = ops := ⟨_, rfl⟩
  have swap : [ArmId.ofInt 5, .ofInt 3].Perm [.ofInt 3, .ofInt 5] := .swap _ _ _
  obtain ⟨b, b', created, created', -, runs⟩ :=
    reordered_steps (by simp) (by decide) swap .tuned
  have first : blank (.listed [.ofInt 5, .ofInt 3]) .tuned = b := Except.ok.inj created
  have second : blank (.listed [.ofInt 3, .ofInt 5]) .tuned = b' := Except.ok.inj created'
  have addressed : ∀ op ∈ ops, op.Addressed := by
    rw [← hops]
    simp [Operation.Addressed]
  have accepted : (b.accepted (ops.map .operation)).flatMap Operation.counts = [2, 1, 1] ∧
      (b'.accepted (ops.map .operation)).flatMap Operation.counts = [2, 1, 1] := by
    rw [← first, ← second, ← hops]
    decide +kernel
  have counts : Values.Counting [2, 1, 1] 4 :=
    ⟨[2, 1, 1], .cons (by simp) (.cons (by simp) (.cons (by simp) .nil)), rfl⟩
  have run := (runs ops addressed).1 4 4 (accepted.1 ▸ counts) (accepted.2 ▸ counts) (by decide)
    (by decide)
  rw [← hops] at run
  exact ⟨b, b', created, created', run⟩

end Bandit

end UpperConfidence
