import UpperConfidence.Proofs.Bandit.Ingestion

/-!
# Columns of the totals

Counts, rewards and squares are vectors that grow in the same way, so what is said
about them can be said once. A single observation changes one entry of each column,
and no other entry.
-/

namespace UpperConfidence

/-- The vectors of the totals. -/
inductive Column where
  | counts
  | rewards
  | squares
  deriving DecidableEq

/-- What an observation with reward `r` adds to its arm in a column. -/
def Column.entry : Column → (r : Float) → Float
  | .counts, _ => 1
  | .rewards, r => r
  | .squares, r => r * r

/-- Whether an algorithm needs a column. -/
def Algorithm.keeps (a : Algorithm) : Column → Bool
  | .squares => a.tracksVariance
  | _ => true

def Stats.column (s : Stats) : Column → Option Values
  | .counts => some s.counts
  | .rewards => some s.rewards
  | .squares => s.squares

def Contribution.column (c : Contribution) : Column → Option Values
  | .counts => some c.counts
  | .rewards => some c.rewards
  | .squares => c.squares

theorem Stats.column_grow (s : Stats) (c : Contribution) (col : Column) :
    (s.grow c).column col = addSquares (s.column col) (c.column col) := by
  cases col <;> rfl

/-- Totals are their columns and the number of observations. -/
theorem Stats.ext_columns {s t : Stats} (total : s.total = t.total)
    (columns : ∀ col, s.column col = t.column col) : s = t := by
  obtain ⟨total, counts, rewards, squares⟩ := s
  have hc := columns .counts
  have hr := columns .rewards
  have hq := columns .squares
  simp_all [column]

namespace Contribution

theorem column_spread (c : Contribution) (ids named : List ArmId) (col : Column) :
    (c.spread ids named).column col = (c.column col).map (Values.spread ids named) := by
  cases col <;> rfl

theorem column_restrict (c : Contribution) {a : Algorithm} {col : Column} (kept : a.keeps col) :
    (c.restrict a).column col = c.column col := by
  cases col with
  | squares => exact if_pos kept
  | _ => rfl

end Contribution

namespace Bandit

variable {b b' : Bandit} {col : Column} {xs : Values}

theorem isSome_column (wf : b.WellFormed) (col : Column) :
    (b.stats.column col).isSome = b.algorithm.keeps col := by
  cases col with
  | squares => exact wf.fits.2.2.1
  | _ => rfl

theorem keeps_of_mem (wf : b.WellFormed) (hx : xs ∈ b.stats.column col) :
    b.algorithm.keeps col = true :=
  (isSome_column wf col).symm.trans (Option.isSome_of_mem hx)

theorem length_of_mem_column (wf : b.WellFormed) (hx : xs ∈ b.stats.column col) :
    xs.length = b.ids.length := by
  cases col with
  | counts => exact (congrArg List.length (Option.some_inj.mp hx)).symm.trans wf.fits.1
  | rewards => exact (congrArg List.length (Option.some_inj.mp hx)).symm.trans wf.fits.2.1
  | squares => exact wf.fits.2.2.2 xs hx

theorem proper_of_mem_column (wf : b.WellFormed) (hx : xs ∈ b.stats.column col) : xs.Proper := by
  cases col with
  | counts => exact Option.some_inj.mp hx ▸ wf.proper.counts
  | rewards => exact Option.some_inj.mp hx ▸ wf.proper.rewards
  | squares => exact wf.proper.squares xs hx

/-! ## Single observations -/

variable {arm : ArmId} {r : Float}

theorem column_spread_single (kept : b.algorithm.keeps col = true) :
    (b.spread (.single arm r)).column col = some (Values.spread b.ids [arm] [col.entry r]) := by
  cases col with
  | squares => exact (if_pos kept).trans rfl
  | _ => rfl

/-- A column after a single observation. -/
theorem column_of_single (wf : b.WellFormed) (accepted : b.step (.single arm r) = (b', .ok ()))
    (hx : xs ∈ b.stats.column col) :
    xs.add (Values.spread b.ids [arm] [col.entry r]) ∈ b'.stats.column col := by
  obtain ⟨-, rfl⟩ := grow_of_accepted wf.toReady accepted
  rw [Stats.column_grow, Option.mem_def.mp hx, column_spread_single (keeps_of_mem wf hx)]
  rfl

/-- A single observation changes the entry of its arm only. -/
theorem grownAt_of_single (wf : b.WellFormed) (accepted : b.step (.single arm r) = (b', .ok ()))
    {i : ℕ} (place : b.ids[i]? = some arm) {xs' : Values} (hx' : xs' ∈ b'.stats.column col) :
    ∃ xs ∈ b.stats.column col, xs.GrownAt xs' i (col.entry r) ∧ ∀ j, j ≠ i → xs'[j]? = xs[j]? := by
  obtain ⟨xs, hx⟩ : ∃ xs, xs ∈ b.stats.column col := by
    have wf' : b'.WellFormed := by simpa only [accepted] using wf.step (.single arm r)
    have algorithm : b'.algorithm = b.algorithm := by
      simpa only [accepted] using (wf.step_fixed (.single arm r)).2
    have kept : (b.stats.column col).isSome := by
      rw [isSome_column wf, ← algorithm]
      exact keeps_of_mem wf' hx'
    exact Option.isSome_iff_exists.mp kept
  obtain rfl := Option.mem_unique (column_of_single wf accepted hx) hx'
  have length := length_of_mem_column wf hx
  refine ⟨xs, hx, ?_, fun j other => ?_⟩
  · exact Values.grownAt_of_named length (List.nodup_singleton arm) place (k := 0) rfl rfl
  · rcases Nat.lt_or_ge j b.ids.length with hj | hj
    · have differs : b.ids[j] ∉ [arm] := by
        intro same
        have here := List.getElem?_eq_getElem hj
        rw [List.mem_singleton.mp same, ← place] at here
        exact other ((List.getElem?_inj hj wf.nodup).mp here)
      exact Values.getElem?_of_unnamed length (proper_of_mem_column wf hx)
        (List.getElem?_eq_getElem hj) differs
    · have short : (xs.add (Values.spread b.ids [arm] [col.entry r])).length = xs.length := by
        simp [length]
      rw [List.getElem?_eq_none (by omega), List.getElem?_eq_none (by omega)]

end Bandit

end UpperConfidence
