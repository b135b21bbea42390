import UpperConfidence.Proofs.Bandit.Accepted

/-!
# Bandits in lock step

Two bandits over the same arms are given operations side by side. What a step does
depends on the arms, on the vectors of the operation and on their lengths, and the
algorithm has a say in the squares alone. So a bandit for rewards that are zero or
one is a tuned bandit that takes the rewards for their squares, and whatever squares
two bandits are given, and whatever they make of them, they agree on how each step
ends, on the number of observations, on the counts and on the rewards.
-/

namespace UpperConfidence

/-! ## Runs side by side -/

namespace Bandit

/-- The bandits that operations leave behind one after the other, each with how the operation
ended. -/
def steps (b : Bandit) : List Operation → List (Bandit × Except Failure Unit)
  | [] => []
  | op :: ops => b.step op :: (b.step op).1.steps ops

/-- Each operation is done to what those before it leave behind. -/
theorem getElem?_steps (b : Bandit) (ops : List Operation) (k : ℕ) :
    (b.steps ops)[k]? = ops[k]?.map (b.after (ops.take k)).step := by
  induction ops generalizing b k with
  | nil => rfl
  | cons op ops ih =>
    cases k <;> grind [steps, after]

/-- A relation that each pair of steps keeps holds after all steps. -/
theorem forall₂_steps {R : Bandit → Bandit → Prop} {S : Operation → Operation → Prop}
    (step : ∀ b b' op op', R b b' → S op op' →
      R (b.step op).1 (b'.step op').1 ∧ (b.step op).2 = (b'.step op').2)
    {b b' : Bandit} (start : R b b') {ops ops' : List Operation} (h : List.Forall₂ S ops ops') :
    List.Forall₂ (fun p q => R p.1 q.1 ∧ p.2 = q.2) (b.steps ops) (b'.steps ops') := by
  induction h generalizing b b' with
  | nil => exact .nil
  | cons same _ ih =>
    have first := step _ _ _ _ start same
    exact .cons first (ih first.1)

theorem exists_step_eq (b : Bandit) (op : Operation) :
    ∃ stats, (b.step op).1 = { b with stats } := by
  cases contributed : b.contribution op with
  | error e => exact ⟨b.stats, by rw [step_of_rejected contributed]⟩
  | ok c =>
    rw [step_of_contribution contributed]
    split
    · exact ⟨_, rfl⟩
    · exact ⟨_, rfl⟩

theorem algorithm_after (b : Bandit) (ops : List Operation) :
    (b.after ops).algorithm = b.algorithm := by
  induction ops generalizing b with
  | nil => rfl
  | cons op ops ih =>
    obtain ⟨stats, eq⟩ := b.exists_step_eq op
    rw [after, List.foldl_cons]
    exact (ih _).trans (by rw [eq])

end Bandit

/-! ## The check of a batch -/

namespace Batch

variable {batch : Batch} {a : Algorithm}

theorem check_of_given {qs : Values} (given : batch.squares = some qs) : batch.check a = (do
    requireLength .rewards batch.counts.length batch.rewards.length
    requireLength .squares batch.counts.length qs.length) := by
  simp [check, given]

/-- Squares as long as the counts are not in the way of a batch. -/
theorem check_of_fitting (supplied : a = .tuned → batch.squares ≠ none)
    (fitting : batch.rewards.length = batch.counts.length →
      ∀ qs ∈ batch.squares, qs.length = batch.counts.length) :
    batch.check a = requireLength .rewards batch.counts.length batch.rewards.length := by
  cases given : batch.squares with
  | none =>
    have other : a ≠ .tuned := fun tuned => supplied tuned given
    cases checked : requireLength .rewards batch.counts.length batch.rewards.length <;>
      simp [check, given, other, checked, bind, Except.bind, pure, Except.pure]
  | some qs =>
    rw [check_of_given given]
    by_cases rewards : batch.rewards.length = batch.counts.length
    · rw [requireLength_eq_ok_iff.mpr rewards.symm]
      exact requireLength_eq_ok_iff.mpr (fitting rewards qs given).symm
    · rw [requireLength_of_ne (Ne.symm rewards)]
      rfl

theorem length_of_check (checked : batch.check a = .ok ()) :
    batch.rewards.length = batch.counts.length ∧
      ∀ qs ∈ batch.squares, qs.length = batch.counts.length := by
  cases given : batch.squares with
  | none =>
    have other : a ≠ .tuned := by
      rintro rfl
      have refused : batch.check .tuned = .error (.missingSquares .tuned) := if_pos ⟨rfl, given⟩
      cases refused.symm.trans checked
    rw [check_of_fitting (fun tuned => absurd tuned other) (by simp [given])] at checked
    exact ⟨(requireLength_eq_ok_iff.mp checked).symm, by simp⟩
  | some qs =>
    rw [check_of_given given] at checked
    obtain ⟨u, rewards, squares⟩ := bind_eq_ok_iff.mp checked
    refine ⟨(requireLength_eq_ok_iff.mp rewards).symm, fun qs' same => ?_⟩
    obtain rfl := Option.some_inj.mp same
    exact (requireLength_eq_ok_iff.mp squares).symm

end Batch

/-! ## Rewards for squares -/

/-- The operation in which a batch has its rewards for squares. -/
def Operation.squareByRewards : Operation → Operation
  | .batch given => .batch { given with squares := some given.rewards }
  | .single arm reward => .single arm reward

/-- Squares, if there are any, are as many as the counts. -/
def Operation.Fitting : Operation → Prop
  | .batch given => ∀ qs ∈ given.squares, qs.length = given.counts.length
  | .single .. => True

namespace Bandit

variable {b b' : Bandit} {op op' : Operation}

/-- Bandits that cannot be told apart, except by their algorithms. -/
structure Agrees (b b' : Bandit) : Prop where
  ids : b.ids = b'.ids
  stats : b.stats = b'.stats
  scores : ∀ ln, b.scores ln = b'.scores ln
  action : ∀ ln, b.action ln = b'.action ln

/-- The bandit as a tuned one. -/
def tuned (b : Bandit) : Bandit := { b with algorithm := .tuned }

@[simp] theorem tuned_stats (b : Bandit) : b.tuned.stats = b.stats := rfl

theorem agrees_tuned (bernoulli : b.algorithm = .tunedBernoulli) : Agrees b b.tuned where
  ids := rfl
  stats := rfl
  scores ln := by
    rw [scores, bernoulli]
    rfl
  action ln := by
    rw [action, action, choice?, choice?, scores, bernoulli]
    rfl

theorem create_tuned (arms : Arms) :
    create ⟨arms, .tuned⟩ = (create ⟨arms, .tunedBernoulli⟩).map tuned := by
  change _ = tuned <$> create ⟨arms, .tunedBernoulli⟩
  simp only [create, map_bind, map_pure]
  rfl

/-- What a tuned bandit makes of the rewards for squares. -/
theorem contribution_tuned (bernoulli : b.algorithm = .tunedBernoulli) (fitting : op.Fitting) :
    b.tuned.contribution op.squareByRewards = b.contribution op := by
  cases op with
  | single arm reward =>
    simp only [contribution, Operation.squareByRewards, singleContribution, bernoulli]
    rfl
  | batch batch =>
    have checks : ({ batch with squares := some batch.rewards } : Batch).check .tuned =
        batch.check .tunedBernoulli := by
      rw [Batch.check_of_fitting (by simp) (by simp), Batch.check_of_fitting (by simp)
        fun _ => fitting]
    simp only [contribution, Operation.squareByRewards, batchContribution, bernoulli, tuned, checks]
    rfl

theorem step_tuned (bernoulli : b.algorithm = .tunedBernoulli) (fitting : op.Fitting) :
    b.tuned.step op.squareByRewards = ((b.step op).1.tuned, (b.step op).2) := by
  have same := contribution_tuned bernoulli fitting
  cases contributed : b.contribution op with
  | error e =>
    rw [step_of_rejected contributed, step_of_rejected (same.trans contributed)]
  | ok c =>
    rw [step_of_contribution contributed, step_of_contribution (same.trans contributed),
      tuned_stats]
    split <;> rfl

/-- A bandit for rewards that are zero or one does no more with squares than check them. -/
theorem step_of_check (bernoulli : b.algorithm = .tunedBernoulli) {batch : Batch}
    {squares squares' : Option Values}
    (checks : ({ batch with squares } : Batch).check .tunedBernoulli =
      ({ batch with squares := squares' } : Batch).check .tunedBernoulli) :
    b.step (.batch { batch with squares }) =
      b.step (.batch { batch with squares := squares' }) := by
  have contributions : b.contribution (.batch { batch with squares }) =
      b.contribution (.batch { batch with squares := squares' }) := by
    simp only [contribution, batchContribution, bernoulli, checks]
    rfl
  exact step_congr contributions

/-- A bandit for rewards that are zero or one is a tuned bandit that takes the rewards of each batch
for its squares. Squares that come with a batch have no effect but that of their number. -/
theorem bernoulli_agrees_tuned (arms : Arms) :
    create ⟨arms, .tuned⟩ = (create ⟨arms, .tunedBernoulli⟩).map tuned ∧
    ∀ b t, create ⟨arms, .tunedBernoulli⟩ = .ok b → create ⟨arms, .tuned⟩ = .ok t →
      Agrees b t ∧
      (∀ ops : List Operation, (∀ op ∈ ops, op.Fitting) →
        List.Forall₂ (fun p q => Agrees p.1 q.1 ∧ p.2 = q.2) (b.steps ops)
          (t.steps (ops.map .squareByRewards))) ∧
      ∀ (ops : List Operation) (batch : Batch) (qs qs' : Values),
        (qs.length = qs'.length → (b.after ops).step (.batch { batch with squares := some qs }) =
          (b.after ops).step (.batch { batch with squares := some qs' })) ∧
        (qs.length = batch.counts.length →
          (b.after ops).step (.batch { batch with squares := some qs }) =
            (b.after ops).step (.batch { batch with squares := none })) := by
  refine ⟨create_tuned arms, fun b t created created' => ?_⟩
  have bernoulli : b.algorithm = .tunedBernoulli := (wellFormed_of_create created).2.2
  obtain rfl : b.tuned = t := by
    rw [create_tuned, created] at created'
    exact Except.ok.inj created'
  refine ⟨agrees_tuned bernoulli, fun ops fitting => ?_, fun ops batch qs qs' => ?_⟩
  · have side : List.Forall₂ (fun op op' => op.Fitting ∧ op.squareByRewards = op') ops
        (ops.map .squareByRewards) := by
      rw [List.forall₂_map_right_iff, List.forall₂_same]
      exact fun op mem => ⟨fitting op mem, rfl⟩
    have run := forall₂_steps (R := fun b t => b.algorithm = .tunedBernoulli ∧ b.tuned = t) ?_
      ⟨bernoulli, rfl⟩ side
    · exact run.imp fun p q h => ⟨h.1.2 ▸ agrees_tuned h.1.1, h.2⟩
    · rintro b _ op _ ⟨bernoulli, rfl⟩ ⟨fitting, rfl⟩
      obtain ⟨stats, eq⟩ := b.exists_step_eq op
      rw [step_tuned bernoulli fitting, eq]
      exact ⟨⟨bernoulli, rfl⟩, rfl⟩
  · have kept := (algorithm_after b ops).trans bernoulli
    refine ⟨fun length => step_of_check kept ?_, fun fitting => step_of_check kept ?_⟩
    · rw [Batch.check_of_given rfl, Batch.check_of_given rfl, length]
    · rw [Batch.check_of_fitting (by simp) (by simp [fitting]),
        Batch.check_of_fitting (by simp) (by simp)]

/-- Three batches and an unknown arm, for two arms whose rewards are zero or one. -/
theorem bernoulli_agrees_tuned_of_two_arms : ∃ b t : Bandit,
    create ⟨.count 2, .tunedBernoulli⟩ = .ok b ∧ create ⟨.count 2, .tuned⟩ = .ok t ∧
    List.Forall₂ (fun p q => Agrees p.1 q.1 ∧ p.2 = q.2)
      (b.steps [.batch ⟨[2, 1], [1, 1], none, none⟩, .batch ⟨[1], [1], some [7], some [.ofInt 1]⟩,
        .batch ⟨[1, 1], [1], none, none⟩, .single (.ofInt 2) 1])
      (t.steps [.batch ⟨[2, 1], [1, 1], some [1, 1], none⟩,
        .batch ⟨[1], [1], some [1], some [.ofInt 1]⟩, .batch ⟨[1, 1], [1], some [1], none⟩,
        .single (.ofInt 2) 1]) ∧
    b.step (.batch ⟨[2, 1], [1, 1], some [7, 8], none⟩) =
      b.step (.batch ⟨[2, 1], [1, 1], none, none⟩) := by
  obtain ⟨b, hb, created, -⟩ := exists_create (.count 2) .tunedBernoulli (by decide) (by decide)
  have created' : create ⟨.count 2, .tuned⟩ = .ok b.tuned := by
    rw [← hb]
    rfl
  obtain ⟨-, runs, squares⟩ := (bernoulli_agrees_tuned (.count 2)).2 b b.tuned created created'
  have run := runs [.batch ⟨[2, 1], [1, 1], none, none⟩,
    .batch ⟨[1], [1], some [7], some [.ofInt 1]⟩, .batch ⟨[1, 1], [1], none, none⟩,
    .single (.ofInt 2) 1] (by simp [Operation.Fitting])
  have ignored := (squares [] ⟨[2, 1], [1, 1], none, none⟩ [7, 8] []).2 (by simp)
  exact ⟨b, b.tuned, created, created', run, ignored⟩

/-! ## Squares left aside -/

end Bandit

/-- Operations that differ in nothing but the squares of batches, which are as many. -/
inductive Operation.SameButSquares : Operation → Operation → Prop
  | batch (counts rewards : Values) (arms : Option (List ArmId)) {qs qs' : Values}
      (length : qs.length = qs'.length) :
      SameButSquares (.batch ⟨counts, rewards, some qs, arms⟩)
        (.batch ⟨counts, rewards, some qs', arms⟩)
  | single (arm : ArmId) (reward : Float) : SameButSquares (.single arm reward) (.single arm reward)

/-- A vector can be placed where another one of its length can. -/
theorem Values.exists_place {xs ys zs : Values} {positions : List ℕ} {n : ℕ}
    (placed : xs.place positions n = .ok zs) (length : ys.length = xs.length) :
    ∃ ws, ys.place positions n = .ok ws := by
  rw [place] at placed ⊢
  obtain ⟨u, lengths, placed⟩ := bind_eq_ok_iff.mp placed
  simp only [bind_eq_ok_iff, length]
  split at placed
  · cases placed
  · exact ⟨_, u, lengths, rfl⟩

namespace Contribution

/-- A contribution without its squares. -/
def plain (c : Contribution) : Contribution := { c with squares := none }

variable {c : Contribution}

/-- Squares as long as the counts are not in the way of placing a contribution. -/
theorem map_plain_place (fitting : ∀ qs ∈ c.squares, qs.length = c.counts.length)
    (positions : List ℕ) (n : ℕ) :
    plain <$> c.place positions n = c.plain.place positions n := by
  obtain ⟨counts, rewards, squares⟩ := c
  simp only [place, plain, map_bind]
  -- squares come last, and they fit once the counts do
  cases first : counts.place positions n with
  | error e => rfl
  | ok xs =>
    obtain ⟨zs, third⟩ : ∃ zs, squares.mapM (·.place positions n) = .ok zs := by
      cases squares with
      | none => exact ⟨none, rfl⟩
      | some qs =>
        obtain ⟨zs, placed⟩ := Values.exists_place first (fitting qs rfl)
        exact ⟨some zs, by simp [placed]⟩
    rw [third]
    rfl

end Contribution

namespace Bandit

variable {b b' : Bandit} {op op' : Operation}

theorem align_congr (index : b.index = b'.index) (arms : Option (List ArmId)) (c : Contribution) :
    b.align arms c = b'.align arms c := by
  simp only [align, size, index]

theorem map_plain_align {c : Contribution} (fitting : ∀ qs ∈ c.squares, qs.length = c.counts.length)
    (arms : Option (List ArmId)) :
    Contribution.plain <$> b.align arms c = b.align arms c.plain := by
  unfold align
  split
  · simp only [map_bind, Contribution.map_plain_place fitting]
    rfl
  · rw [map_bind]
    rfl

/-- What a batch adds besides squares does not depend on them once they have been checked. -/
theorem map_plain_batchContribution (b : Bandit) (batch : Batch) :
    Contribution.plain <$> b.batchContribution batch = (do
      batch.check b.algorithm
      b.align batch.arms ⟨batch.counts, batch.rewards, none⟩) := by
  simp only [batchContribution, map_bind, map_pure]
  cases checked : batch.check b.algorithm with
  | error e => rfl
  | ok u =>
    obtain ⟨rewards, squares⟩ := Batch.length_of_check checked
    have fitting : ∀ qs ∈ batch.squaresFor b.algorithm, qs.length = batch.counts.length := by
      intro qs taken
      unfold Batch.squaresFor at taken
      split at taken
      · obtain rfl := Option.some_inj.mp taken
        exact rewards
      · exact squares qs taken
    exact map_plain_align
      (c := ⟨batch.counts, batch.rewards, batch.squaresFor b.algorithm⟩) fitting batch.arms

theorem map_plain_singleContribution (b : Bandit) (arm : ArmId) (reward : Float) :
    Contribution.plain <$> b.singleContribution arm reward = (do
      let position ← b.index.position arm
      Contribution.place ⟨[1], [reward], none⟩ [position] b.size) := by
  unfold singleContribution
  cases b.index.position arm with
  | error e => rfl
  | ok position =>
    refine Contribution.map_plain_place (fun qs given => ?_) [position] b.size
    split at given
    · obtain rfl := Option.some_inj.mp given
      rfl
    · cases given

theorem map_plain_contribution (index : b.index = b'.index) (h : op.SameButSquares op') :
    Contribution.plain <$> b.contribution op = Contribution.plain <$> b'.contribution op' := by
  cases h with
  | single arm reward =>
    rw [contribution, contribution, map_plain_singleContribution, map_plain_singleContribution,
      size, size, index]
  | batch counts rewards arms length =>
    rw [contribution, contribution, map_plain_batchContribution, map_plain_batchContribution,
      Batch.check_of_given rfl, Batch.check_of_given rfl, length]
    simp only [align_congr index]

/-- Bandits over the same arms with the same counts and rewards. -/
structure Alike (b b' : Bandit) : Prop where
  index : b.index = b'.index
  total : b.stats.total = b'.stats.total
  counts : b.stats.counts = b'.stats.counts
  rewards : b.stats.rewards = b'.stats.rewards

/-- What can be read off bandits with the same counts and rewards is the same, and so are the
scores that do not take squares. -/
structure AlikeInSight (b b' : Bandit) : Prop extends Alike b b' where
  averages : b.averages = b'.averages
  scores : ∀ a : Algorithm, a = .ucb1 ∨ a = .metric →
    ∀ ln, a.scores ln b.stats = a.scores ln b'.stats
  /-- The scores of the second bandit, if it does not take squares, are those of the first one
  under the algorithm of the second. -/
  own : b'.algorithm = .ucb1 ∨ b'.algorithm = .metric →
    ∀ ln, b'.scores ln = b'.algorithm.scores ln b.stats

namespace Alike

theorem of_create {config config' : Config} (created : create config = .ok b)
    (created' : create config' = .ok b') (same : b.ids = b'.ids) : Alike b b' := by
  have index := (wellFormed_of_create created).1.sound.index_eq
    (wellFormed_of_create created').1.sound same
  have size : b.size = b'.size := congrArg ArmIndex.size index
  refine ⟨index, ?_, ?_, ?_⟩ <;>
    rw [stats_of_create created, stats_of_create created', size] <;> rfl

/-- Squares that differ leave bandits alike, and each step ends in the same way. -/
theorem step (alike : Alike b b') (h : op.SameButSquares op') :
    Alike (b.step op).1 (b'.step op').1 ∧ (b.step op).2 = (b'.step op').2 := by
  have same := map_plain_contribution alike.index h
  cases contributed : b.contribution op with
  | error e =>
    have contributed' : b'.contribution op' = .error e := by
      cases given : b'.contribution op' <;> simp_all
    rw [step_of_rejected contributed, step_of_rejected contributed']
    exact ⟨alike, rfl⟩
  | ok c =>
    obtain ⟨c', contributed', counts, rewards⟩ : ∃ c', b'.contribution op' = .ok c' ∧
        c.counts = c'.counts ∧ c.rewards = c'.rewards := by
      cases given : b'.contribution op' <;> simp_all [Contribution.plain]
    have observed : c.observed = c'.observed := by rw [Contribution.observed, counts]; rfl
    rw [step_of_contribution contributed, step_of_contribution contributed', ← observed,
      ← alike.total]
    split
    · refine ⟨⟨alike.index, ?_, ?_, ?_⟩, rfl⟩
      · exact congrArg₂ (· + ·) alike.total observed
      · exact congrArg₂ Values.add alike.counts counts
      · exact congrArg₂ Values.add alike.rewards rewards
    · exact ⟨alike, rfl⟩

/-- The bounds that do not take squares. -/
theorem scores_eq (alike : Alike b b') {a : Algorithm} (plain : a = .ucb1 ∨ a = .metric)
    (ln : Float → Float) : a.scores ln b.stats = a.scores ln b'.stats := by
  obtain rfl | rfl := plain <;>
    simp only [Algorithm.scores, Algorithm.bound, ScoreTerms.ofStats, ScoreTerms.plainBound,
      ScoreTerms.metricBound, alike.total, alike.counts, alike.rewards]

theorem inSight (alike : Alike b b') : AlikeInSight b b' where
  toAlike := alike
  averages := congrArg₂ Values.div alike.rewards alike.counts
  scores _ plain := alike.scores_eq plain
  own plain ln := (alike.scores_eq plain ln).symm

end Alike

/-- A bandit that does not take squares contributes none. -/
theorem map_plain_of_untracked (untracked : b.algorithm = .ucb1 ∨ b.algorithm = .metric)
    (batch : Batch) : Contribution.plain <$> b.batchContribution batch =
      b.batchContribution batch := by
  have plain (c : Contribution) : (c.restrict b.algorithm).plain = c.restrict b.algorithm := by
    obtain plain | plain := untracked <;> rw [plain] <;> rfl
  simp only [batchContribution, map_bind, map_pure, plain]

/-- A bandit that does not take squares does no more with them than check their number. -/
theorem step_of_untracked (untracked : b.algorithm = .ucb1 ∨ b.algorithm = .metric) {batch : Batch}
    {qs : Values} (length : qs.length = batch.counts.length) :
    b.step (.batch { batch with squares := some qs }) =
      b.step (.batch { batch with squares := none }) := by
  have other : b.algorithm ≠ .tuned := by
    rintro tuned
    simp [tuned] at untracked
  have plain (batch : Batch) :=
    (map_plain_of_untracked untracked batch).symm.trans (map_plain_batchContribution b batch)
  have contributions : b.batchContribution { batch with squares := some qs } =
      b.batchContribution { batch with squares := none } := by
    rw [plain, plain, Batch.check_of_fitting (absurd · other) (by simp [length]),
      Batch.check_of_fitting (absurd · other) (by simp)]
  exact step_congr contributions

/-- Neither the algorithm nor the squares have an influence on how operations end, on the counts
or on the rewards. -/
theorem alike_of_steps {config config' : Config} {b b' : Bandit} (created : create config = .ok b)
    (created' : create config' = .ok b') (same : b.ids = b'.ids) :
    (∀ ops ops' : List Operation, List.Forall₂ Operation.SameButSquares ops ops' →
      List.Forall₂ (fun p q => AlikeInSight p.1 q.1 ∧ p.2 = q.2) (b.steps ops) (b'.steps ops')) ∧
    (config.algorithm = .ucb1 ∨ config.algorithm = .metric →
      ∀ (ops : List Operation) (batch : Batch) (qs : Values), qs.length = batch.counts.length →
        (b.after ops).step (.batch { batch with squares := some qs }) =
          (b.after ops).step (.batch { batch with squares := none })) := by
  refine ⟨fun ops ops' side => ?_, fun untracked ops batch qs length => ?_⟩
  · have run := forall₂_steps (fun _ _ _ _ alike side => Alike.step alike side)
      (Alike.of_create created created' same) side
    exact run.imp fun p q h => ⟨h.1.inSight, h.2⟩
  · have algorithm : (b.after ops).algorithm = config.algorithm :=
      (algorithm_after b ops).trans (wellFormed_of_create created).2.2
    exact step_of_untracked (algorithm ▸ untracked) length

/-- A bandit without squares next to a tuned one, which are given different squares. Squares of the
wrong number and an unknown arm are rejected by both. -/
theorem alike_of_two_arms : ∃ b t : Bandit,
    create ⟨.count 2, .ucb1⟩ = .ok b ∧ create ⟨.count 2, .tuned⟩ = .ok t ∧
    List.Forall₂ (fun p q => AlikeInSight p.1 q.1 ∧ p.2 = q.2)
      (b.steps [.batch ⟨[2, 1], [1, 1], some [5, 5], none⟩,
        .batch ⟨[1], [1], some [7, 8], some [.ofInt 1]⟩, .single (.ofInt 0) 1,
        .single (.ofInt 7) 1])
      (t.steps [.batch ⟨[2, 1], [1, 1], some [1, 1], none⟩,
        .batch ⟨[1], [1], some [1, 0], some [.ofInt 1]⟩, .single (.ofInt 0) 1,
        .single (.ofInt 7) 1]) ∧
    (b.after [.single (.ofInt 0) 1]).step (.batch ⟨[2, 1], [1, 1], some [5, 5], none⟩) =
      (b.after [.single (.ofInt 0) 1]).step (.batch ⟨[2, 1], [1, 1], none, none⟩) := by
  obtain ⟨b, hb, created, -⟩ := exists_create (.count 2) .ucb1 (by decide) (by decide)
  obtain ⟨t, ht, created', -⟩ := exists_create (.count 2) .tuned (by decide) (by decide)
  have same : b.ids = t.ids := by
    rw [← hb, ← ht]
    rfl
  obtain ⟨runs, plain⟩ := alike_of_steps created created' same
  refine ⟨b, t, created, created', runs _ _ ?_,
    plain (.inl rfl) _ ⟨[2, 1], [1, 1], none, none⟩ _ ?_⟩
  · exact .cons (.batch _ _ _ (by simp)) (.cons (.batch _ _ _ (by simp))
      (.cons (.single _ _) (.cons (.single _ _) .nil)))
  · simp

end Bandit

end UpperConfidence
