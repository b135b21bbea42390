import UpperConfidence.Proofs.Arm.Rename
import UpperConfidence.Proofs.Bandit.Lockstep

/-!
# Bandits with other names for their arms

Nothing that a bandit does depends on how its arms are called. A bandit whose arms have been
renamed does the same as before when the arms in its operations are renamed, too: it keeps the
same totals, chooses the arm in the same place and reports the same failures in the new names.
So two arms with different identifiers are never taken for each other, whatever they look like.
-/

namespace UpperConfidence

/-! ## Checks and placement -/

/-- No arm is named where values cannot be placed. -/
theorem Values.mapError_place (f : ArmId → ArmId) (xs : Values) (positions : List ℕ) (n : ℕ) :
    (xs.place positions n).mapError (.rename f) = xs.place positions n := by
  rw [place, mapError_bind, mapError_requireLength]
  cases positions.find? (n ≤ ·) <;> rfl

theorem Contribution.mapError_place (f : ArmId → ArmId) (c : Contribution) (positions : List ℕ)
    (n : ℕ) : (c.place positions n).mapError (.rename f) = c.place positions n := by
  have squares : (c.squares.mapM (Values.place · positions n)).mapError (.rename f) =
      c.squares.mapM (Values.place · positions n) := by
    cases c.squares with
    | none => rfl
    | some qs => rw [Option.mapM_some, mapError_map, Values.mapError_place]
  simp only [place, mapError_bind, Values.mapError_place, squares]
  rfl

/-- A batch with other names for its arms. -/
def Batch.rename (f : ArmId → ArmId) (batch : Batch) : Batch :=
  { batch with arms := batch.arms.map (List.map f) }

/-- No arm is named where the vectors of a batch do not fit. -/
theorem Batch.mapError_check (f : ArmId → ArmId) (batch : Batch) (a : Algorithm) :
    (batch.check a).mapError (.rename f) = batch.check a := by
  rw [check]
  by_cases refused : a = .tuned ∧ batch.squares = none
  · rw [if_pos refused]
    rfl
  · rw [if_neg refused, mapError_bind, mapError_requireLength]
    cases batch.squares with
    | none => rfl
    | some qs => simp only [mapError_requireLength]

/-- An operation with other names for its arms. -/
def Operation.rename (f : ArmId → ArmId) : Operation → Operation
  | .batch given => .batch (given.rename f)
  | .single arm reward => .single (f arm) reward

/-- An activity with other names for the arms. A testbed does not name any. -/
def Activity.rename (f : ArmId → ArmId) : Activity → Activity
  | .operation op => .operation (op.rename f)
  | .play t fns source steps drawn => .play t fns source steps drawn

namespace Bandit

/-- A bandit with other names for its arms. -/
def rename (f : ArmId → ArmId) (b : Bandit) : Bandit := { b with index := b.index.rename f }

@[simp] theorem rename_index (f : ArmId → ArmId) (b : Bandit) :
    (b.rename f).index = b.index.rename f := rfl

@[simp] theorem rename_algorithm (f : ArmId → ArmId) (b : Bandit) :
    (b.rename f).algorithm = b.algorithm := rfl

@[simp] theorem rename_stats (f : ArmId → ArmId) (b : Bandit) :
    (b.rename f).stats = b.stats := rfl

@[simp] theorem rename_size (f : ArmId → ArmId) (b : Bandit) : (b.rename f).size = b.size := by
  simp [rename, size, ArmIndex.rename, ArmIndex.size]

/-! ## Steps -/

section Injective

variable {f : ArmId → ArmId} (injective : Function.Injective f)
include injective

theorem create_rename (arms : Arms) (a : Algorithm) :
    create ⟨arms.rename f, a⟩ = (rename f <$> create ⟨arms, a⟩).mapError (.rename f) := by
  have size (index : ArmIndex) : (index.rename f).size = index.size := List.length_map f
  rw [create, create, Arms.resolve_rename injective]
  cases arms.resolve with
  | error e => rfl
  | ok ids =>
    change (ArmIndex.ofList (ids.map f) >>= _) =
      (rename f <$> (ArmIndex.ofList ids >>= _)).mapError _
    rw [ArmIndex.ofList_map injective]
    cases ArmIndex.ofList ids with
    | error e => rfl
    | ok index =>
      change Except.ok (Bandit.mk _ _ (.fresh (index.rename f).size _)) = .ok _
      rw [size]
      rfl

theorem align_rename (b : Bandit) (arms : Option (List ArmId)) (c : Contribution) :
    (b.rename f).align (arms.map (List.map f)) c = (b.align arms c).mapError (.rename f) := by
  have named : (arms.map (List.map f)).getD (b.rename f).ids = (arms.getD b.ids).map f :=
    Option.getD_map ..
  by_cases all : arms.getD b.ids = b.ids
  · rw [align_canonical all, align_canonical (by rw [named, all]; rfl), rename_size]
    change (fun _ => c) <$> _ = Except.mapError _ ((fun _ => c) <$> _)
    rw [mapError_map, mapError_requireLength]
  · cases arms with
    | none => exact absurd rfl all
    | some ids =>
      rw [Option.getD_some] at all
      have other : ids.map f ≠ (b.rename f).ids := injective.list_map.ne all
      rw [Option.map_some, align_named all, align_named other]
      simp only [rename_index, rename_size, ArmIndex.positions_rename injective, List.length_map,
        mapError_bind, mapError_requireLength, Contribution.mapError_place]

theorem contribution_rename (b : Bandit) (op : Operation) :
    (b.rename f).contribution (op.rename f) = (b.contribution op).mapError (.rename f) := by
  cases op with
  | single arm reward =>
    simp only [contribution, Operation.rename, singleContribution, rename_index, rename_size,
      rename_algorithm, ArmIndex.position_rename injective, mapError_bind,
      Contribution.mapError_place]
    rfl
  | batch batch =>
    have checked : (batch.rename f).check b.algorithm =
        (batch.check b.algorithm).mapError (.rename f) := (batch.mapError_check f b.algorithm).symm
    simp only [contribution, Operation.rename, batchContribution, rename_algorithm, checked,
      mapError_bind, ← align_rename injective]
    rfl

/-- A step does the same under other names. -/
theorem step_rename (b : Bandit) (op : Operation) : (b.rename f).step (op.rename f) =
    ((b.step op).1.rename f, (b.step op).2.mapError (.rename f)) := by
  have renamed := contribution_rename injective b op
  cases contributed : b.contribution op with
  | error cause =>
    rw [contributed] at renamed
    rw [step_of_rejected contributed, step_of_rejected renamed]
    rfl
  | ok c =>
    rw [contributed] at renamed
    rw [step_of_contribution contributed, step_of_contribution renamed, rename_stats]
    split <;> rfl

theorem steps_rename (b : Bandit) (ops : List Operation) :
    (b.rename f).steps (ops.map (.rename f)) =
      (b.steps ops).map fun p => (p.1.rename f, p.2.mapError (.rename f)) := by
  induction ops generalizing b with
  | nil => rfl
  | cons op ops ih =>
    rw [List.map_cons, steps, steps, List.map_cons, step_rename injective, ← ih]

/-! ## Choices -/

omit injective in
/-- The chosen arm is the one in the same place. -/
theorem action_rename (f : ArmId → ArmId) (b : Bandit) (ln : Float → Float) :
    (b.rename f).action ln = f <$> b.action ln := by
  have choice : (b.rename f).choice? ln = (b.choice? ln).map (Prod.map f id) := by
    have scored : (b.rename f).ids.zip (b.scores ln) =
        (b.ids.zip (b.scores ln)).map (Prod.map f id) := List.zip_map_left ..
    rw [choice?, choice?, ← List.getElem?_map, ← scored]
    rfl
  rw [action, action, choice]
  cases b.choice? ln <;> rfl

end Injective

end Bandit

/-! ## Testbeds -/

/-- The progress of a run with other names for the arms of its bandit. -/
def Progress.rename (f : ArmId → ArmId) (p : Progress) : Progress :=
  { p with bandit := p.bandit.rename f }

/-- A run with other names for the arms of its bandit. -/
def Run.rename (f : ArmId → ArmId) (run : Run) : Run :=
  ⟨run.toProgress.rename f, run.outcome.mapError (.rename f)⟩

section Injective

variable {f : ArmId → ArmId} (injective : Function.Injective f)
include injective

namespace Testbed

theorem choose_rename (fns : Elementary) (b : Bandit) :
    choose fns (b.rename f) = (Prod.map f id <$> choose fns b).mapError (.rename f) := by
  have unnamed : (b.action fns.ln).mapError (.rename f) = b.action fns.ln := by
    rw [Bandit.action]
    cases b.choice? fns.ln <;> rfl
  simp only [choose, Bandit.action_rename, Bandit.rename_index, ArmIndex.position_rename injective,
    bind_map_left, mapError_map, mapError_bind, unnamed, map_bind]
  rfl

theorem exec_round_rename (t : Testbed) (fns : Elementary) (source : Source) (p : Progress) :
    (t.round fns source).exec (p.rename f) =
      ((t.round fns source).exec p).map (Except.mapError (.rename f)) (.rename f) := by
  obtain ⟨b, trace, drawn⟩ := p
  simp only [exec_round, Progress.rename, choose_rename injective]
  rcases choose fns b with e | ⟨arm, position⟩
  · rfl
  · simp only [Except.mapError, Functor.map, Except.map, Prod.map, id_eq]
    rcases (t.pull fns position).sample source drawn with ⟨e | reward, drawn⟩
    · rfl
    · have taken : (b.rename f).step (.single (f arm) reward) = _ :=
        Bandit.step_rename injective b (.single arm reward)
      simp only [taken]
      rcases b.step (.single arm reward) with ⟨b', e | u⟩ <;> rfl

theorem exec_rounds_rename (t : Testbed) (fns : Elementary) (source : Source) (steps : ℕ)
    (p : Progress) : (t.rounds fns source steps).exec (p.rename f) =
      ((t.rounds fns source steps).exec p).map (Except.mapError (.rename f)) (.rename f) := by
  induction steps generalizing p with
  | zero => rfl
  | succ steps ih =>
    rw [exec_rounds_succ, exec_rounds_succ, exec_round_rename injective]
    rcases (t.round fns source).exec p with ⟨e | u, p'⟩
    · rfl
    · exact ih p'

theorem run_rename (t : Testbed) (fns : Elementary) (source : Source) (steps : ℕ)
    (b : Bandit) (drawn : ℕ) : t.run fns source steps (b.rename f) drawn =
      (t.run fns source steps b drawn).rename f := by
  by_cases size : b.size = t.size
  · rw [run_of_size size, run_of_size ((b.rename_size f).trans size)]
    exact congrArg Run.of (exec_rounds_rename injective t fns source steps ⟨b, [], drawn⟩)
  · rw [run_of_size_ne size, run_of_size_ne ((b.rename_size f).trans_ne size), Bandit.rename_size]
    rfl

end Testbed

namespace Bandit

theorem history_rename (b : Bandit) (activities : List Activity) :
    (b.rename f).history (activities.map (.rename f)) = (b.history activities).rename f := by
  induction activities generalizing b with
  | nil => rfl
  | cons activity activities ih =>
    have first : (b.rename f).perform (activity.rename f) = (b.perform activity).rename f := by
      cases activity with
      | operation op => exact congrArg Prod.fst (step_rename injective b op)
      | play t fns source steps drawn =>
        exact congrArg (·.bandit) (Testbed.run_rename injective t fns source steps b drawn)
    rw [List.map_cons, history, List.foldl_cons, first]
    exact ih (b.perform activity)

end Bandit

end Injective

/-! ## Nothing but names -/

namespace Bandit

/-- Two bandits that are the same but for the names of their arms. -/
structure Renamed (f : ArmId → ArmId) (b b' : Bandit) : Prop where
  ids : b'.ids = b.ids.map f
  algorithm : b'.algorithm = b.algorithm
  stats : b'.stats = b.stats
  averages : b'.averages = b.averages
  scores : ∀ ln, b'.scores ln = b.scores ln
  position : ∀ arm, b'.index.position (f arm) = (b.index.position arm).mapError (.rename f)
  positions : ∀ arms, b'.index.positions (arms.map f) =
    (b.index.positions arms).mapError (.rename f)
  action : ∀ ln, b'.action ln = f <$> b.action ln

theorem renamed_rename {f : ArmId → ArmId} (injective : Function.Injective f) (b : Bandit) :
    Renamed f b (b.rename f) where
  ids := rfl
  algorithm := rfl
  stats := rfl
  averages := rfl
  scores _ := rfl
  position := ArmIndex.position_rename injective b.index
  positions := ArmIndex.positions_rename injective b.index
  action := action_rename f b

/-- A bandit does not take one of two arms for the other. -/
structure Apart (b : Bandit) (arm other : ArmId) : Prop where
  /-- They are in different places, and a batch can have both of them. -/
  together : ∀ i j, b.index.position arm = .ok i → b.index.position other = .ok j →
    i ≠ j ∧ b.index.positions [arm, other] = .ok [i, j]
  /-- That one of them is known does not make the other one known. -/
  unknown : other ∉ b.ids → ∀ r,
    b.step (.single other r) = (b, .error (.rejected (.unknownArm other b.ids)))
  /-- What is observed of one of them leaves the other one as it is. -/
  untouched : ∀ op b' i, b.names op = [arm] → b.step op = (b', .ok ()) →
    b.ids[i]? = some other → b.stats.SameAt b'.stats i

theorem apart_of_ne {b : Bandit} (wf : b.WellFormed) {arm other : ArmId} (differ : arm ≠ other) :
    b.Apart arm other where
  together i j here there := by
    refine ⟨?_, ?_⟩
    · rintro rfl
      rw [ArmIndex.position_eq_ok_iff, wf.sound.lookup_eq_some_iff] at here there
      exact differ (Option.some_inj.mp (here.symm.trans there))
    · have nodup : [arm, other].Nodup := by simpa using differ
      rw [ArmIndex.positions, requireDistinct_eq_ok_iff.mpr nodup]
      simp only [List.mapM_cons, List.mapM_nil, here, there]
      rfl
  unknown missing _ := step_of_rejected (contribution_single_of_unknown wf.toReady missing)
  untouched op b' i names accepted place := by
    refine sameAt_of_accepted wf accepted place ?_
    rw [names, List.mem_singleton]
    exact differ.symm

/-- Two different arms can be the arms of one bandit. -/
theorem exists_create_pair {arm other : ArmId} (differ : arm ≠ other) (a : Algorithm) :
    ∃ b, create ⟨.listed [arm, other], a⟩ = .ok b ∧ b.index.position arm = .ok 0 ∧
      b.index.position other = .ok 1 := by
  have nonempty : (Arms.listed [arm, other]).toList ≠ [] := by simp [Arms.toList]
  have nodup : (Arms.listed [arm, other]).toList.Nodup := by simpa [Arms.toList] using differ
  obtain ⟨b, -, created, -⟩ := exists_create (.listed [arm, other]) a nonempty nodup
  obtain ⟨wf, ids, -⟩ := wellFormed_of_create created
  have places : b.index.ids = [arm, other] := ids
  refine ⟨b, created, ?_, ?_⟩ <;>
    rw [ArmIndex.position_eq_ok_iff, wf.sound.lookup_eq_some_iff, places] <;> rfl

/-- Identifiers of arms are opaque: if different arms get different names, nothing changes but the
names, in creating a bandit, in every step and in every run of a testbed. Two arms that print alike
are different arms. -/
theorem opaque_identifiers {f : ArmId → ArmId} (injective : Function.Injective f) (arms : Arms)
    (a : Algorithm) :
    create ⟨arms.rename f, a⟩ = (rename f <$> create ⟨arms, a⟩).mapError (.rename f) ∧
    (∀ b b', create ⟨arms, a⟩ = .ok b → create ⟨arms.rename f, a⟩ = .ok b' →
      Renamed f b b' ∧
      (∀ ops : List Operation, List.Forall₂
        (fun p q => Renamed f p.1 q.1 ∧ q.2 = p.2.mapError (.rename f))
        (b.steps ops) (b'.steps (ops.map (.rename f)))) ∧
      ∀ (activities : List Activity) (t : Testbed) (fns : Elementary) (source : Source)
          (steps drawn : ℕ),
        Renamed f (b.history activities) (b'.history (activities.map (.rename f))) ∧
        t.run fns source steps (b'.history (activities.map (.rename f))) drawn =
          (t.run fns source steps (b.history activities) drawn).rename f) ∧
    (ArmId.ofInt 1).text = (ArmId.name "1").text ∧
    (∃ b, create ⟨.listed [.ofInt 1, .name "1"], a⟩ = .ok b ∧
      b.index.position (.ofInt 1) = .ok 0 ∧ b.index.position (.name "1") = .ok 1) ∧
    ∀ b : Bandit, b.Reachable →
      b.Apart (.ofInt 1) (.name "1") ∧ b.Apart (.name "1") (.ofInt 1) := by
  have differ : ArmId.ofInt 1 ≠ .name "1" := ArmId.int_ne_name _ _
  refine ⟨create_rename injective arms a, fun b b' created created' => ?_, rfl,
    exists_create_pair differ a, fun b reachable => ?_⟩
  · obtain rfl : b.rename f = b' := by
      rw [create_rename injective, created] at created'
      exact Except.ok.inj created'
    refine ⟨renamed_rename injective b, fun ops => ?_,
      fun activities t fns source steps drawn => ?_⟩
    · rw [steps_rename injective, List.forall₂_map_right_iff, List.forall₂_same]
      exact fun p _ => ⟨renamed_rename injective p.1, rfl⟩
    · rw [history_rename injective]
      exact ⟨renamed_rename injective _, Testbed.run_rename injective t fns source steps _ drawn⟩
  · exact ⟨apart_of_ne reachable.wellFormed differ, apart_of_ne reachable.wellFormed differ.symm⟩

/-- The second of two arms changes names with an arm that looks like it. -/
theorem opaque_identifiers_of_swap : ∃ (f : ArmId → ArmId) (b b' : Bandit),
    Function.Injective f ∧ f (.ofInt 1) = .name "1" ∧ f (.name "1") = .ofInt 1 ∧
    create ⟨.count 2, .ucb1⟩ = .ok b ∧
    create ⟨.listed [.ofInt 0, .name "1"], .ucb1⟩ = .ok b' ∧ Renamed f b b' ∧
    List.Forall₂ (fun p q => Renamed f p.1 q.1 ∧ q.2 = p.2.mapError (.rename f))
      (b.steps [.single (.ofInt 1) 1, .single (.name "1") 1])
      (b'.steps [.single (.name "1") 1, .single (.ofInt 1) 1]) ∧
    b.Apart (.ofInt 1) (.name "1") := by
  obtain ⟨f, hf⟩ : ∃ f : ArmId → ArmId, ⇑(Equiv.swap (ArmId.ofInt 1) (.name "1")) = f := ⟨_, rfl⟩
  have injective : Function.Injective f := hf ▸ Equiv.injective _
  have there : f (.ofInt 1) = .name "1" := hf ▸ Equiv.swap_apply_left _ _
  have back : f (.name "1") = .ofInt 1 := hf ▸ Equiv.swap_apply_right _ _
  have arms : Arms.rename f (.count 2) = .listed [.ofInt 0, .name "1"] := by
    rw [← hf]
    decide
  obtain ⟨b, -, created, reachable⟩ := exists_create (.count 2) .ucb1 (by decide) (by decide)
  have created' : create ⟨Arms.rename f (.count 2), .ucb1⟩ = .ok (b.rename f) := by
    rw [create_rename injective, created]
    rfl
  obtain ⟨-, renamed, -, -, apart⟩ := opaque_identifiers injective (.count 2) .ucb1
  obtain ⟨same, runs, -⟩ := renamed b _ created created'
  have run := runs [.single (.ofInt 1) 1, .single (.name "1") 1]
  rw [List.map_cons, List.map_cons, List.map_nil, Operation.rename, Operation.rename, there,
    back] at run
  exact ⟨f, b, _, injective, there, back, created, arms ▸ created', same, run,
    (apart b reachable).1⟩

end Bandit

end UpperConfidence
