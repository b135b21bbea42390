import UpperConfidence.Proofs.Bandit.Accepted
import UpperConfidence.Proofs.Bandit.Column

/-!
# Batches of single observations

A batch of the totals of some observations does the same as the observations one by
one, in any order and for any algorithm, as long as every addition is exact. The
totals of every arm then stand for integers that grow by what the observations of
the arm amount to, and totals that stand for the same integers are the same.
-/

namespace UpperConfidence

open Double

namespace Column

/-- What an observation with reward `r` adds to a column. -/
def amount : Column → (r : Float) → ℤ
  | .counts, _ => 1
  | .rewards, r => integer r
  | .squares, r => integer r ^ 2

/-- What the observations of an arm add to a column, in order. -/
def amounts (col : Column) (obs : List (ArmId × Float)) (arm : ArmId) : List ℤ :=
  (obs.filter (·.1 = arm)).map fun o => col.amount o.2

/-- An entry that is an integer within `2 ^ 53` is not rounded. -/
theorem value_entry (col : Column) {r : Float} (whole : value r = some (integer r : ℚ))
    (square : col = .squares → |integer r ^ 2| ≤ 2 ^ 53) :
    value (col.entry r) = some (col.amount r : ℚ) := by
  cases col with
  | counts => simp [entry, amount]
  | rewards => exact whole
  | squares =>
    have bound := square rfl
    simp only [entry, amount]
    rw [sq] at bound ⊢
    exact value_mul whole whole bound

theorem sum_amounts_cons (col : Column) (o : ArmId × Float) (obs : List (ArmId × Float))
    (arm : ArmId) : (col.amounts (o :: obs) arm).sum =
      Pi.single (M := fun _ => ℤ) o.1 (col.amount o.2) arm + (col.amounts obs arm).sum := by
  by_cases here : arm = o.1
  · subst here
    simp [amounts]
  · simp [amounts, here, Ne.symm here]

end Column

/-! ## Integers in vectors -/

namespace Values

/-- The entry of every arm is the integer that `f` has for it. -/
def Integers (ids : List ArmId) (f : ArmId → ℤ) (xs : Values) : Prop :=
  List.Forall₂ (fun arm x => value x = some ((f arm : ℤ) : ℚ)) ids xs

/-- Adding `ks arm` to `f arm`, one after the other, stays within `2 ^ 53`. -/
def InRange (ids : List ArmId) (f : ArmId → ℤ) (ks : ArmId → List ℤ) : Prop :=
  ∀ arm ∈ ids, ∀ pre, pre <+: ks arm → |f arm + pre.sum| ≤ 2 ^ 53

variable {ids named : List ArmId} {f g : ArmId → ℤ} {xs ys : Values}

theorem Integers.congr (h : Integers ids f xs) (same : ∀ arm ∈ ids, f arm = g arm) :
    Integers ids g xs := by
  induction h with
  | nil => exact .nil
  | cons hx _ ih =>
    refine .cons ?_ (ih fun arm mem => same arm (by simp [mem]))
    rw [← same _ List.mem_cons_self, hx]

theorem Integers.add (hx : Integers ids f xs) (hy : Integers ids g ys)
    (bound : ∀ arm ∈ ids, |f arm + g arm| ≤ 2 ^ 53) :
    Integers ids (fun arm => f arm + g arm) (xs.add ys) := by
  induction hx generalizing ys with
  | nil =>
    cases hy
    exact .nil
  | cons vx _ ih =>
    cases hy with
    | cons vy rest =>
      exact .cons (value_add vx vy (bound _ List.mem_cons_self))
        (ih rest fun arm mem => bound arm (by simp [mem]))

/-- Vectors of the same integers are the same. -/
theorem Integers.unique (hx : Integers ids f xs) (hy : Integers ids f ys) (px : xs.Proper)
    (py : ys.Proper) : xs = ys := by
  induction hx generalizing ys with
  | nil =>
    cases hy
    rfl
  | cons vx _ ih =>
    cases hy with
    | cons vy rest =>
      rw [eq_of_value vx vy (px _ List.mem_cons_self) (py _ List.mem_cons_self),
        ih rest (fun x mem => px x (by simp [mem])) (fun y mem => py y (by simp [mem]))]

theorem Integers.spread (nodup : named.Nodup) (h : Integers named f xs)
    (rest : ∀ arm ∉ named, f arm = 0) (ids : List ArmId) :
    Integers ids f (spread ids named xs) := by
  rw [Integers, Values.spread, List.forall₂_map_right_iff, List.forall₂_same]
  intro arm _
  by_cases mem : arm ∈ named
  · obtain ⟨k, hk, rfl⟩ := List.getElem_of_mem mem
    have hx : k < xs.length := h.length_eq ▸ hk
    rw [lookup_zip_getElem nodup hk hx, Option.getD_some]
    exact (List.forall₂_iff_get.mp h).2 k hk hx
  · rw [lookup_zip_of_notMem mem, rest arm mem]
    simp

section InRange

variable {col : Column} {o : ArmId × Float} {obs : List (ArmId × Float)}

theorem InRange.head (h : InRange ids f (col.amounts (o :: obs))) :
    ∀ arm ∈ ids, |f arm + Pi.single (M := fun _ => ℤ) o.1 (col.amount o.2) arm| ≤ 2 ^ 53 := by
  intro arm mem
  by_cases here : arm = o.1
  · subst here
    simpa [Column.amounts] using h o.1 mem [col.amount o.2] (by simp [Column.amounts])
  · simpa [here] using h arm mem [] List.nil_prefix

theorem InRange.tail (h : InRange ids f (col.amounts (o :: obs))) :
    InRange ids (fun arm => f arm + Pi.single (M := fun _ => ℤ) o.1 (col.amount o.2) arm)
      (col.amounts obs) := by
  intro arm mem pre hpre
  by_cases here : arm = o.1
  · subst here
    have longer : col.amount o.2 :: pre <+: col.amounts (o :: obs) o.1 := by
      simpa [Column.amounts] using hpre
    simpa [add_assoc] using h o.1 mem _ longer
  · have same : col.amounts (o :: obs) arm = col.amounts obs arm := by
      simp [Column.amounts, Ne.symm here]
    simpa [here] using h arm mem pre (same ▸ hpre)

theorem InRange.last (h : InRange ids f (col.amounts obs)) :
    ∀ arm ∈ ids, |f arm + (col.amounts obs arm).sum| ≤ 2 ^ 53 :=
  fun arm mem => h arm mem _ (List.prefix_refl _)

/-- Sums of zeros and ones stay below their number. -/
theorem InRange.of_unit (length : obs.length ≤ 2 ^ 53)
    (unit : ∀ o ∈ obs, 0 ≤ col.amount o.2 ∧ col.amount o.2 ≤ 1) :
    InRange ids 0 (col.amounts obs) := by
  have unit' (arm : ArmId) : ∀ k ∈ col.amounts obs arm, 0 ≤ k ∧ k ≤ 1 := by
    intro k mem
    obtain ⟨o, here, rfl⟩ := List.mem_map.mp mem
    exact unit o (List.mem_of_mem_filter here)
  intro arm _ pre hpre
  have shorter : pre.length ≤ obs.length := by
    calc pre.length ≤ (col.amounts obs arm).length := hpre.length_le
      _ = (obs.filter (·.1 = arm)).length := by simp [Column.amounts]
      _ ≤ obs.length := List.length_filter_le _ _
  have nonneg : 0 ≤ pre.sum :=
    List.sum_nonneg fun k mem => (unit' arm k (hpre.subset mem)).1
  have upper : pre.sum ≤ pre.length • 1 :=
    List.sum_le_card_nsmul pre 1 fun k mem => (unit' arm k (hpre.subset mem)).2
  rw [Pi.zero_apply, zero_add, abs_of_nonneg nonneg]
  simp only [nsmul_eq_mul] at upper
  omega

end InRange

end Values

/-! ## Totals that stand for integers -/

/-- In each column, the totals of the arms are the integers of `f`. -/
def Stats.Holds (s : Stats) (ids : List ArmId) (f : Column → ArmId → ℤ) : Prop :=
  ∀ col, ∀ xs ∈ s.column col, xs.Integers ids (f col)

theorem Stats.Holds.grow {s : Stats} {c : Contribution} {ids : List ArmId}
    {f g : Column → ArmId → ℤ} (h : s.Holds ids f)
    (added : ∀ col, ∀ xs ∈ s.column col, ∃ ys ∈ c.column col, Values.Integers ids (g col) ys)
    (bound : ∀ col, (s.column col).isSome → ∀ arm ∈ ids, |f col arm + g col arm| ≤ 2 ^ 53) :
    (s.grow c).Holds ids (fun col arm => f col arm + g col arm) := by
  intro col zs hz
  rw [column_grow] at hz
  obtain ⟨xs, hx, -⟩ := of_mem_addSquares hz
  obtain ⟨ys, hy, integers⟩ := added col xs hx
  obtain rfl : xs.add ys = zs := by
    rw [Option.mem_def.mp hx, Option.mem_def.mp hy] at hz
    exact Option.some_inj.mp hz
  exact (h col xs hx).add integers (bound col (Option.isSome_of_mem hx))

namespace Bandit

variable {b b' : Bandit} {op : Operation} {k : ℕ} {f g : Column → ArmId → ℤ}

/-- Bandits with the same arms and the same integers for totals are the same. -/
theorem eq_of_holds (wf : b.WellFormed) (wf' : b'.WellFormed) (index : b'.index = b.index)
    (algorithm : b'.algorithm = b.algorithm) (total : b'.stats.total = b.stats.total)
    (h : b.stats.Holds b.ids f) (h' : b'.stats.Holds b.ids f) : b' = b := by
  have columns : ∀ col, b'.stats.column col = b.stats.column col := by
    intro col
    have kept : (b'.stats.column col).isSome = (b.stats.column col).isSome := by
      rw [isSome_column wf', isSome_column wf, algorithm]
    cases given : b.stats.column col with
    | none => simpa [given] using kept
    | some xs =>
      obtain ⟨xs', given'⟩ := Option.isSome_iff_exists.mp (kept.trans (by rw [given]; rfl))
      rw [given', (h' col xs' given').unique (h col xs given) (proper_of_mem_column wf' given')
        (proper_of_mem_column wf given)]
  have stats := Stats.ext_columns total columns
  obtain ⟨_, _, _⟩ := b
  obtain ⟨_, _, _⟩ := b'
  simp_all

/-- An operation that fits and adds the integers of `g`, for `k` observations. -/
structure Gives (b : Bandit) (op : Operation) (k : ℕ) (g : Column → ArmId → ℤ) : Prop where
  fits : ∃ c, b.contribution op = .ok c ∧ c.Same (b.spread op)
  observed : (b.spread op).observed.toNat = k
  columns : ∀ col, ∀ xs ∈ b.stats.column col, ∃ ys ∈ (b.spread op).column col,
    Values.Integers b.ids (g col) ys

theorem Gives.step (wf : b.WellFormed) (h : b.stats.Holds b.ids f) (gives : b.Gives op k g)
    (bound : ∀ col, b.algorithm.keeps col → ∀ arm ∈ b.ids, |f col arm + g col arm| ≤ 2 ^ 53)
    (room : b.stats.total.toNat + k < 2 ^ 64) :
    ∃ b', b.step op = (b', .ok ()) ∧ b'.stats.total.toNat = b.stats.total.toNat + k ∧
      b'.stats.Holds b.ids (fun col arm => f col arm + g col arm) := by
  obtain ⟨c, contributed, same⟩ := gives.fits
  have taken := step_of_fits wf.toReady contributed same (by rwa [gives.observed])
  refine ⟨_, taken, ?_, h.grow gives.columns fun col kept => bound col ?_⟩
  swap
  · rwa [isSome_column wf] at kept
  rw [total_of_accepted wf.toReady taken, gives.observed]

theorem Gives.step_of_full (gives : b.Gives op k g)
    (full : 2 ^ 64 ≤ b.stats.total.toNat + k) :
    b.step op = (b, .error (.fault .countOverflow)) := by
  obtain ⟨c, contributed, same⟩ := gives.fits
  exact step_of_overflow contributed same (by rwa [gives.observed])

/-! ## Observations -/

/-- Observations of known arms with integer rewards that a bandit can add up without rounding,
in this order. -/
structure Exact (b : Bandit) (obs : List (ArmId × Float)) : Prop where
  known : ∀ o ∈ obs, o.1 ∈ b.ids
  whole : ∀ o ∈ obs, value o.2 = some (integer o.2 : ℚ)
  binary : b.algorithm = .tunedBernoulli → ∀ o ∈ obs, integer o.2 = 0 ∨ integer o.2 = 1
  square : b.algorithm.tracksVariance = true → ∀ o ∈ obs, |integer o.2 ^ 2| ≤ 2 ^ 53
  length : obs.length ≤ 2 ^ 53
  columns : ∀ col, b.algorithm.keeps col → ∃ f : ArmId → ℤ,
    (∀ xs ∈ b.stats.column col, xs.Integers b.ids f) ∧ Values.InRange b.ids f (col.amounts obs)

/-- A batch of different arms, all observed ones among them, with the sums of their observations. -/
structure Sums (b : Bandit) (obs : List (ArmId × Float)) (batch : Batch) : Prop where
  nodup : (b.named batch).Nodup
  known : b.named batch ⊆ b.ids
  observed : ∀ o ∈ obs, o.1 ∈ b.named batch
  counts : batch.counts.Integers (b.named batch) fun arm => (Column.counts.amounts obs arm).sum
  rewards : batch.rewards.Integers (b.named batch) fun arm => (Column.rewards.amounts obs arm).sum
  squares : b.algorithm = .tuned → ∃ qs ∈ batch.squares,
    qs.Integers (b.named batch) fun arm => (Column.squares.amounts obs arm).sum
  length : ∀ qs ∈ batch.squares, qs.length = batch.counts.length

theorem gives_single (wf : b.WellFormed) {arm : ArmId} (known : arm ∈ b.ids) {r : Float}
    (whole : value r = some (integer r : ℚ))
    (square : b.algorithm.tracksVariance = true → |integer r ^ 2| ≤ 2 ^ 53) :
    b.Gives (.single arm r) 1 fun col => Pi.single arm (col.amount r) := by
  have spread {x : Float} {k : ℤ} (hx : value x = some (k : ℚ)) :
      (Values.spread b.ids [arm] [x]).Integers b.ids (Pi.single arm k) := by
    refine Values.Integers.spread (List.nodup_singleton arm) (.cons ?_ .nil) ?_ b.ids
    · rwa [Pi.single_eq_same]
    · intro other differs
      exact Pi.single_eq_of_ne (M := fun _ => ℤ) (by simpa using differs) k
  refine ⟨contribution_single wf.toReady known r, ?_, fun col xs hx => ?_⟩
  · rw [observed_single wf.toReady known]
    rfl
  · have kept := keeps_of_mem wf hx
    have entry := Column.value_entry col whole (by rintro rfl; exact square kept)
    exact ⟨_, column_spread_single kept, spread entry⟩

/-! ## One batch -/

section Batch

variable {obs : List (ArmId × Float)} {batch : Batch} (sums : b.Sums obs batch)
include sums

theorem clear_of_sums : ∀ j < 7, ∀ e, ¬ Obstacle b batch j e := by
  have counts := sums.counts.length_eq
  have rewards := sums.rewards.length_eq
  refine clear_of_lengths sums.nodup sums.known counts.symm (rewards.symm.trans counts)
    sums.length fun tuned missing => ?_
  obtain ⟨qs, given, -⟩ := sums.squares tuned
  simp [missing] at given

theorem amounts_of_unnamed (col : Column) {arm : ArmId} (unnamed : arm ∉ b.named batch) :
    (col.amounts obs arm).sum = 0 := by
  have none : obs.filter (·.1 = arm) = [] := by
    rw [List.filter_eq_nil_iff]
    intro o mem here
    exact unnamed (of_decide_eq_true here ▸ sums.observed o mem)
  rw [Column.amounts, none]
  rfl

/-- The counts of a batch add up to the number of observations, each of which is in one count. -/
theorem counting_of_sums : batch.counts.Counting obs.length := by
  refine ⟨(b.named batch).map fun arm => (obs.filter (·.1 = arm)).length, ?_, ?_⟩
  · rw [List.forall₂_map_right_iff]
    refine sums.counts.flip.imp fun x arm hx => ?_
    simpa [Column.amounts, Column.amount] using hx
  · have observed := sums.observed
    have nodup := sums.nodup
    clear sums
    induction obs with
    | nil => simp
    | cons o obs ih =>
      have here := sum_indicator nodup (observed o (by simp))
      have rest := ih fun o' mem => observed o' (by simp [mem])
      have split (arm : ArmId) : ((o :: obs).filter (·.1 = arm)).length =
          (if arm = o.1 then 1 else 0) + (obs.filter (·.1 = arm)).length := by
        by_cases same : arm = o.1
        · subst same
          simp [Nat.add_comm]
        · simp [same, Ne.symm same]
      simp only [split, List.sum_map_add, here, rest, List.length_cons, Nat.add_comm]

theorem gives_batch (wf : b.WellFormed) (exact : b.Exact obs) :
    b.Gives (.batch batch) obs.length fun col arm => (col.amounts obs arm).sum := by
  have clear := clear_of_sums sums
  have spread {xs : Values} (col : Column)
      (h : xs.Integers (b.named batch) fun arm => (col.amounts obs arm).sum) :=
    h.spread sums.nodup (fun arm unnamed => amounts_of_unnamed sums col unnamed) b.ids
  refine ⟨contribution_of_clear wf.toReady clear, ?_, fun col xs hx => ?_⟩
  · refine observed_of_counting ?_ exact.length
    exact (counting_of_sums sums).spread wf.nodup sums.nodup sums.known sums.counts.length_eq.symm
  · cases col with
    | counts => exact ⟨_, rfl, spread .counts sums.counts⟩
    | rewards => exact ⟨_, rfl, spread .rewards sums.rewards⟩
    | squares =>
      have tracks : b.algorithm.tracksVariance = true := keeps_of_mem wf hx
      have taken := squares_spread b batch
      rw [if_pos tracks] at taken
      cases tuned : b.algorithm with
      | ucb1 => simp [tuned, Algorithm.tracksVariance] at tracks
      | metric => simp [tuned, Algorithm.tracksVariance] at tracks
      | tuned =>
        obtain ⟨qs, given, integers⟩ := sums.squares tuned
        rw [tuned, Batch.squaresFor, Option.mem_def.mp given] at taken
        · exact ⟨_, taken, spread .squares integers⟩
        · simp
      | tunedBernoulli =>
        rw [tuned, Batch.squaresFor] at taken
        refine ⟨_, taken, (spread .rewards sums.rewards).congr fun arm _ => ?_⟩
        congr 1
        refine List.map_congr_left fun o mem => ?_
        rcases exact.binary tuned o (List.mem_of_mem_filter mem) with zero | one
        · simp [Column.amount, zero]
        · simp [Column.amount, one]

end Batch

/-! ## One observation after the other -/

/-- The observations as single operations. -/
def singles (obs : List (ArmId × Float)) : List Operation := obs.map fun o => .single o.1 o.2

theorem foldlM_singles {obs : List (ArmId × Float)} (wf : b.WellFormed)
    (h : b.stats.Holds b.ids f) (known : ∀ o ∈ obs, o.1 ∈ b.ids)
    (whole : ∀ o ∈ obs, value o.2 = some (integer o.2 : ℚ))
    (square : b.algorithm.tracksVariance = true → ∀ o ∈ obs, |integer o.2 ^ 2| ≤ 2 ^ 53)
    (range : ∀ col, b.algorithm.keeps col → Values.InRange b.ids (f col) (col.amounts obs))
    (room : b.stats.total.toNat + obs.length < 2 ^ 64) :
    ∃ b', (singles obs).foldlM apply b = .ok b' ∧ b'.WellFormed ∧ b'.index = b.index ∧
      b'.algorithm = b.algorithm ∧ b'.stats.total.toNat = b.stats.total.toNat + obs.length ∧
      b'.stats.Holds b.ids (fun col arm => f col arm + (col.amounts obs arm).sum) := by
  induction obs generalizing b f with
  | nil => exact ⟨b, rfl, wf, rfl, rfl, rfl, by simpa [Column.amounts] using h⟩
  | cons o obs ih =>
    rw [List.length_cons] at room ⊢
    have gives := gives_single wf (known o (by simp)) (whole o (by simp)) fun tracks =>
      square tracks o (by simp)
    obtain ⟨b₁, first, total, holds⟩ := gives.step wf h (fun col kept => (range col kept).head)
      (by omega)
    have wf₁ := wf.step (.single o.1 o.2)
    obtain ⟨index, algorithm⟩ := wf.step_fixed (.single o.1 o.2)
    rw [first] at wf₁ index algorithm
    have ids : b₁.ids = b.ids := congrArg ArmIndex.ids index
    obtain ⟨b', rest, wf', index', algorithm', total', holds'⟩ := ih (b := b₁) wf₁
      (by rw [ids]; exact holds) (by rw [ids]; exact fun o' mem => known o' (by simp [mem]))
      (fun o' mem => whole o' (by simp [mem]))
      (by rw [algorithm]; exact fun tracks o' mem => square tracks o' (by simp [mem]))
      (by rw [ids, algorithm]; exact fun col kept => (range col kept).tail) (by omega)
    refine ⟨b', ?_, wf', index'.trans index, algorithm'.trans algorithm, by omega, ?_⟩
    · rw [singles, List.map_cons, List.foldlM_cons, apply_eq_ok_iff.mpr first]
      exact rest
    · rw [ids] at holds'
      simpa only [Column.sum_amounts_cons, add_assoc] using holds'

/-! ## Any order -/

theorem sum_amounts_perm {obs obs' : List (ArmId × Float)} (perm : obs'.Perm obs) (col : Column)
    (arm : ArmId) : (col.amounts obs' arm).sum = (col.amounts obs arm).sum :=
  ((perm.filter _).map _).sum_eq

theorem Exact.exists_holds {obs : List (ArmId × Float)} (exact : b.Exact obs)
    (wf : b.WellFormed) : ∃ f : Column → ArmId → ℤ, b.stats.Holds b.ids f ∧
      ∀ col, b.algorithm.keeps col → Values.InRange b.ids (f col) (col.amounts obs) := by
  have columns (col : Column) : ∃ f : ArmId → ℤ, b.algorithm.keeps col →
      (∀ xs ∈ b.stats.column col, xs.Integers b.ids f) ∧
        Values.InRange b.ids f (col.amounts obs) := by
    by_cases kept : b.algorithm.keeps col
    · obtain ⟨f, h⟩ := exact.columns col kept
      exact ⟨f, fun _ => h⟩
    · exact ⟨0, fun h => absurd h kept⟩
  choose f h using columns
  refine ⟨f, fun col xs hx => (h col ?_).1 xs hx, fun col kept => (h col kept).2⟩
  exact keeps_of_mem wf hx

theorem exists_batch_eq_singles (wf : b.WellFormed) {obs obs' : List (ArmId × Float)}
    {batch : Batch} (exact : b.Exact obs) (sums : b.Sums obs batch) (perm : obs'.Perm obs)
    (exact' : b.Exact obs') (room : b.stats.total.toNat + obs.length < 2 ^ 64) :
    ∃ b', b.step (.batch batch) = (b', .ok ()) ∧ (singles obs').foldlM apply b = .ok b' := by
  have gives := gives_batch sums wf exact
  obtain ⟨f, holds, range⟩ := exact'.exists_holds wf
  obtain ⟨b₁, taken, total, holds₁⟩ := gives.step wf holds (fun col kept arm mem => by
    rw [← sum_amounts_perm perm]
    exact (range col kept).last arm mem) room
  obtain ⟨b₂, folded, wf₂, index₂, algorithm₂, total₂, holds₂⟩ := foldlM_singles wf holds
    exact'.known exact'.whole exact'.square range (by rwa [perm.length_eq])
  have wf₁ := wf.step (.batch batch)
  obtain ⟨index₁, algorithm₁⟩ := wf.step_fixed (.batch batch)
  rw [taken] at wf₁ index₁ algorithm₁
  have ids : b₁.ids = b.ids := congrArg ArmIndex.ids index₁
  have same : b₂ = b₁ := by
    refine eq_of_holds wf₁ wf₂ (index₂.trans index₁.symm) (algorithm₂.trans algorithm₁.symm) ?_
      (f := fun col arm => f col arm + (col.amounts obs arm).sum) ?_ ?_
    · rw [← UInt64.toNat_inj, total, total₂, perm.length_eq]
    · rwa [ids]
    · simpa only [ids, sum_amounts_perm perm] using holds₂
  exact ⟨b₁, taken, by rw [folded, same]⟩

/-- A batch of the sums of some observations does the same as the observations one by one, in
any order in which no addition is rounded. -/
theorem batch_eq_singles (reachable : b.Reachable) {obs : List (ArmId × Float)} {batch : Batch}
    (exact : b.Exact obs) (sums : b.Sums obs batch) :
    (b.stats.total.toNat + obs.length < 2 ^ 64 → ∃ b', b.step (.batch batch) = (b', .ok ()) ∧
      ∀ obs', obs'.Perm obs → b.Exact obs' → (singles obs').foldlM apply b = .ok b') ∧
    (2 ^ 64 ≤ b.stats.total.toNat + obs.length →
      b.step (.batch batch) = (b, .error (.fault .countOverflow))) := by
  have wf := reachable.wellFormed
  refine ⟨fun room => ?_, (gives_batch sums wf exact).step_of_full⟩
  obtain ⟨b', taken, -⟩ := exists_batch_eq_singles wf exact sums (.refl obs) exact room
  refine ⟨b', taken, fun obs' perm exact' => ?_⟩
  obtain ⟨b'', taken', folded⟩ := exists_batch_eq_singles wf exact sums perm exact' room
  rw [taken] at taken'
  rw [folded, (Prod.mk.inj taken').1]

/-- Three observations of two arms, pooled in a batch that names the second arm first. -/
theorem batch_eq_singles_of_three : ∃ b b' : Bandit, b.Reachable ∧
    b.step (.batch ⟨[2, 1], [2, 0], some [2, 0], some [.ofInt 1, .ofInt 0]⟩) = (b', .ok ()) ∧
    (singles [(.ofInt 1, 1), (.ofInt 0, 0), (.ofInt 1, 1)]).foldlM apply b = .ok b' ∧
    (singles [(.ofInt 0, 0), (.ofInt 1, 1), (.ofInt 1, 1)]).foldlM apply b = .ok b' := by
  obtain ⟨b, hb, created, reachable⟩ := exists_create (.count 2) .tuned (by decide) (by decide)
  have different : ArmId.ofInt 0 ≠ .ofInt 1 := by decide
  have zero : integer 0 = 0 := integer_of_value (k := 0) (by simp)
  have one : integer 1 = 1 := integer_of_value (k := 1) (by simp)
  have exact {obs : List (ArmId × Float)}
      (perm : obs.Perm [(.ofInt 1, 1), (.ofInt 0, 0), (.ofInt 1, 1)]) : b.Exact obs := by
    have members : ∀ o ∈ obs, o = (.ofInt 1, 1) ∨ o = (.ofInt 0, 0) := by
      intro o mem
      have := perm.mem_iff.mp mem
      simp only [List.mem_cons, List.not_mem_nil] at this
      tauto
    have length : obs.length = 3 := perm.length_eq
    subst hb
    refine ⟨?_, ?_, by simp [blank], ?_, by omega, fun col _ => ⟨0, ?_, ?_⟩⟩
    · intro o mem
      rcases members o mem with rfl | rfl <;> decide
    · intro o mem
      rcases members o mem with rfl | rfl <;> simp [zero, one]
    · intro _ o mem
      rcases members o mem with rfl | rfl <;> simp [zero, one]
    · intro xs hx
      have : xs = [0, 0] := by cases col <;> exact (Option.some_inj.mp hx).symm
      subst this
      exact .cons (by simp) (.cons (by simp) .nil)
    · refine Values.InRange.of_unit (by omega) fun o mem => ?_
      rcases members o mem with rfl | rfl <;> cases col <;> simp [Column.amount, zero, one]
  have sums : b.Sums [(.ofInt 1, 1), (.ofInt 0, 0), (.ofInt 1, 1)]
      ⟨[2, 1], [2, 0], some [2, 0], some [.ofInt 1, .ofInt 0]⟩ := by
    subst hb
    have entries {f : ArmId → ℤ} {x y : Float} (hx : value x = some (f (.ofInt 1) : ℚ))
        (hy : value y = some (f (.ofInt 0) : ℚ)) :
        Values.Integers [.ofInt 1, .ofInt 0] f [x, y] := .cons hx (.cons hy .nil)
    refine ⟨by decide, by decide, by decide, ?_, ?_, fun _ => ⟨[2, 0], rfl, ?_⟩, by simp⟩ <;>
      refine entries ?_ ?_ <;>
      simp [Column.amounts, Column.amount, different, Ne.symm different, zero, one]
  obtain ⟨b', taken, folded⟩ := (batch_eq_singles reachable (exact (.refl _)) sums).1 (by
    rw [← hb]
    decide)
  have swapped := List.Perm.swap (ArmId.ofInt 1, (1 : Float)) (.ofInt 0, 0) [(.ofInt 1, 1)]
  exact ⟨b, b', reachable, taken, folded _ (.refl _) (exact (.refl _)),
    folded _ swapped (exact swapped)⟩

end Bandit

end UpperConfidence
