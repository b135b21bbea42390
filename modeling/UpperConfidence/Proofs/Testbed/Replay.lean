import UpperConfidence.Proofs.Bandit.Ingestion
import UpperConfidence.Proofs.Random.Faults

/-!
# Replaying a run

A run is determined by its trace: given to the bandit as single observations, the
plays lead to the same bandit again. The arm of each play is the bandit's choice at
that point, and its reward is what the arm yields at that point of the stream. Two
runs one after the other are one run.

Where a run ends early because a draw is not decided, more attempts take it further.
If all its draws return, then from some number of attempts on it is always the same
run, and it stops early only because a round breaks. The faults of a round come
before the bandit has changed in it, so the bandit is left as the rounds before have
left it.
-/

namespace UpperConfidence

/-- The single observation that a play comes to. -/
def Play.operation (ids : List ArmId) (play : Play) : Operation :=
  .single (ids.getD play.position default) play.reward

/-- A run that goes on, unless it has failed. -/
def Run.andThen (first : Run) (next : Bandit → (drawn : Nat) → Run) : Run :=
  match first.outcome with
  | .ok () =>
    let second := next first.bandit first.drawn
    { second with trace := first.trace ++ second.trace }
  | .error _ => first

/-- The same progress after some earlier rounds. -/
def Progress.following (earlier : List Play) (p : Progress) : Progress :=
  { p with trace := earlier ++ p.trace }

namespace Testbed

/-- The bandit chooses an arm, and in the position of this arm the testbed has a distribution. -/
structure Chooses (t : Testbed) (fns : Elementary) (b : Bandit) (arm : ArmId) (position : Nat)
    (distribution : Distribution) : Prop where
  action : b.action fns.ln = .ok arm
  place : b.ids[position]? = some arm
  known : t.arms[position]? = some distribution

/-- A round that succeeds: the chosen arm yields a reward, which the bandit takes. -/
inductive Plays (t : Testbed) (fns : Elementary) (words : WordStream) (b : Bandit) (drawn : Nat) :
    Play → Bandit → Nat → Prop
  | intro {arm : ArmId} {position : Nat} {distribution : Distribution} {reward : Float}
      {b' : Bandit} {drawn' : Nat} (chosen : t.Chooses fns b arm position distribution)
      (yields : (distribution.reward fns).Yields words drawn (.ok reward) drawn')
      (taken : b.step (.single arm reward) = (b', .ok ())) :
      Plays t fns words b drawn ⟨position, reward⟩ b' drawn'

/-- A round that fails, with its fault and the words drawn so far. -/
inductive Breaks (t : Testbed) (fns : Elementary) (words : WordStream) (b : Bandit) (drawn : Nat) :
    Fault → Nat → Prop
  /-- The probability of the chosen arm is not between zero and one. -/
  | invalid {arm : ArmId} {position : Nat} {p : Float}
      (chosen : t.Chooses fns b arm position (.bernoulli p)) (outside : ¬ (0 ≤ p ∧ p ≤ 1)) :
      Breaks t fns words b drawn .invalidProbability drawn
  /-- The bandit has as many observations as it can count. -/
  | overflow {arm : ArmId} {position : Nat} {distribution : Distribution} {reward : Float}
      {drawn' : Nat} (chosen : t.Chooses fns b arm position distribution)
      (yields : (distribution.reward fns).Yields words drawn (.ok reward) drawn')
      (full : b.stats.total.toNat = 2 ^ 64 - 1) :
      Breaks t fns words b drawn .countOverflow drawn'

/-- The plays of some rounds, one after the other. -/
inductive Replay (t : Testbed) (fns : Elementary) (words : WordStream) :
    Bandit → Nat → List Play → Bandit → Nat → Prop
  | nil (b : Bandit) (drawn : Nat) : Replay t fns words b drawn [] b drawn
  | cons {b b' b'' : Bandit} {drawn drawn' drawn'' : Nat} {play : Play} {trace : List Play}
      (first : t.Plays fns words b drawn play b' drawn')
      (rest : Replay t fns words b' drawn' trace b'' drawn'') :
      Replay t fns words b drawn (play :: trace) b'' drawn''

/-- Wherever fewer than `steps` rounds lead, the draw for the arm chosen there returns. -/
def DrawsReturn (t : Testbed) (fns : Elementary) (words : WordStream) (steps : Nat) (b : Bandit)
    (drawn : Nat) : Prop :=
  ∀ trace b' drawn', t.Replay fns words b drawn trace b' drawn' → trace.length < steps →
    ∀ arm position distribution, t.Chooses fns b' arm position distribution →
      (distribution.reward fns).Returns words drawn'

variable {t : Testbed} {fns : Elementary} {source : Source} {words : WordStream} {b b' : Bandit}
  {drawn drawn' attempts : Nat}

/-! ## One round -/

section Chosen

variable {arm : ArmId} {position : Nat} {distribution : Distribution}
  (chosen : t.Chooses fns b arm position distribution)
include chosen

theorem Chooses.choose (wf : b.WellFormed) : choose fns b = .ok (arm, position) := by
  have found := ArmIndex.position_eq_ok_iff.mpr (wf.sound.lookup_eq_some_iff.mpr chosen.place)
  rw [Testbed.choose, chosen.action]
  simp only [bind, Except.bind, found]
  rfl

theorem Chooses.pull : t.pull fns position = distribution.reward fns := by
  rw [Testbed.pull, chosen.known]

section Sampled

variable {reward : Float} (wf : b.WellFormed) (trace : List Play)
include wf

/-- A draw that fails is the end of the round. -/
theorem Chooses.exec_round_of_fault {cause : Fault}
    (sampled : (distribution.reward fns).sample source drawn = (.error cause, drawn')) :
    (t.round fns source).exec ⟨b, trace, drawn⟩ =
      (.error (.fault cause), ⟨b, trace, drawn'⟩) := by
  simp only [exec_round, chosen.choose wf, chosen.pull, sampled]

theorem Chooses.exec_round_of_error {e : Failure}
    (sampled : (distribution.reward fns).sample source drawn = (.ok reward, drawn'))
    (failed : b.step (.single arm reward) = (b', .error e)) :
    (t.round fns source).exec ⟨b, trace, drawn⟩ = (.error e, ⟨b', trace, drawn'⟩) := by
  simp only [exec_round, chosen.choose wf, chosen.pull, sampled, failed]

theorem Chooses.exec_round_of_ok
    (sampled : (distribution.reward fns).sample source drawn = (.ok reward, drawn'))
    (taken : b.step (.single arm reward) = (b', .ok ())) :
    (t.round fns source).exec ⟨b, trace, drawn⟩ =
      (.ok (), ⟨b', trace ++ [⟨position, reward⟩], drawn'⟩) := by
  simp only [exec_round, chosen.choose wf, chosen.pull, sampled, taken]

end Sampled

end Chosen

/-- A bandit with an arm for each arm of the testbed always has a choice. -/
theorem exists_chooses (t : Testbed) (fns : Elementary) (wf : b.WellFormed)
    (size : b.size = t.size) :
    ∃ arm position distribution, t.Chooses fns b arm position distribution := by
  obtain ⟨arm, place, action⟩ := wf.action fns.ln
  obtain ⟨bound, -⟩ := List.getElem?_eq_some_iff.mp place
  exact ⟨arm, _, _, action, place, List.getElem?_eq_getElem (l := t.arms) (bound.trans_eq size)⟩

/-- What the chosen arm yields decides the round, which succeeds or breaks. It breaks before the
bandit has changed. -/
theorem round_of_yields (wf : b.WellFormed) {arm : ArmId} {position : Nat}
    {distribution : Distribution} (chosen : t.Chooses fns b arm position distribution)
    {outcome : Except Fault Float}
    (yields : (distribution.reward fns).Yields words drawn outcome drawn') :
    (∃ play b', t.Plays fns words b drawn play b' drawn' ∧ ∀ attempts,
      (distribution.reward fns).sample ⟨words, attempts⟩ drawn = (outcome, drawn') →
      (t.round fns ⟨words, attempts⟩).exec ⟨b, [], drawn⟩ = (.ok (), ⟨b', [play], drawn'⟩)) ∨
    (∃ cause, t.Breaks fns words b drawn cause drawn' ∧ ∀ attempts,
      (distribution.reward fns).sample ⟨words, attempts⟩ drawn = (outcome, drawn') →
      (t.round fns ⟨words, attempts⟩).exec ⟨b, [], drawn⟩ =
        (.error (.fault cause), ⟨b, [], drawn'⟩)) := by
  cases outcome with
  | error cause =>
    refine .inr ⟨cause, ?_, fun _ sampled => chosen.exec_round_of_fault wf [] sampled⟩
    cases distribution with
    | gaussian mean deviation =>
      exact absurd yields (Distribution.not_yields_gaussian fns mean deviation)
    | bernoulli p =>
      rcases Distribution.yields_bernoulli fns p words drawn with
        ⟨-, -, reward, after, -, yields'⟩ | ⟨outside, yields'⟩
      · cases (yields.unique yields').1
      · obtain ⟨same, rfl⟩ := yields.unique yields'
        cases same
        exact .invalid chosen outside
  | ok reward =>
    have known : arm ∈ b.ids := List.mem_of_getElem? chosen.place
    obtain ⟨c, contributed, same⟩ := Bandit.contribution_single wf.toReady known reward
    have observed : (b.spread (.single arm reward)).observed = 1 :=
      Bandit.observed_single wf.toReady known
    by_cases room : b.stats.total.toNat + 1 < 2 ^ 64
    · have taken := Bandit.step_of_fits wf.toReady contributed same (by rw [observed]; exact room)
      exact .inl ⟨_, _, .intro chosen yields taken,
        fun _ sampled => chosen.exec_round_of_ok wf [] sampled taken⟩
    · have full : b.stats.total.toNat = 2 ^ 64 - 1 := by
        have := b.stats.total.toNat_lt
        omega
      have failed := Bandit.step_of_overflow contributed same
        (by rw [observed]; exact not_lt.mp room)
      exact .inr ⟨_, .overflow chosen yields full,
        fun _ sampled => chosen.exec_round_of_error wf [] sampled failed⟩

/-- A round succeeds, it breaks or its draw is not decided, and nothing else can happen. -/
theorem round_cases (fns : Elementary) (words : WordStream) (attempts drawn : Nat)
    (wf : b.WellFormed) (size : b.size = t.size) :
    (∃ play b' drawn', t.Plays fns words b drawn play b' drawn' ∧
      (t.round fns ⟨words, attempts⟩).exec ⟨b, [], drawn⟩ = (.ok (), ⟨b', [play], drawn'⟩)) ∨
    (∃ cause drawn', t.Breaks fns words b drawn cause drawn' ∧
      (t.round fns ⟨words, attempts⟩).exec ⟨b, [], drawn⟩ =
        (.error (.fault cause), ⟨b, [], drawn'⟩)) ∨
    (∃ arm position distribution drawn', t.Chooses fns b arm position distribution ∧
      ¬ (distribution.reward fns).Decides ⟨words, attempts⟩ drawn ∧
      (t.round fns ⟨words, attempts⟩).exec ⟨b, [], drawn⟩ =
        (.error (.fault .undecided), ⟨b, [], drawn'⟩)) := by
  obtain ⟨arm, position, distribution, chosen⟩ := exists_chooses t fns wf size
  rcases sampled : (distribution.reward fns).sample ⟨words, attempts⟩ drawn with ⟨outcome, drawn'⟩
  by_cases undecided : outcome = .error .undecided
  · subst undecided
    exact .inr (.inr ⟨_, _, _, drawn', chosen, by simp [Sampler.Decides, sampled],
      chosen.exec_round_of_fault wf [] sampled⟩)
  · have yields := (Distribution.made_reward fns distribution).yields sampled undecided
    rcases round_of_yields wf chosen yields with
      ⟨play, b', plays, played⟩ | ⟨cause, breaks, failed⟩
    · exact .inl ⟨play, b', drawn', plays, played attempts sampled⟩
    · exact .inr (.inl ⟨cause, drawn', breaks, failed attempts sampled⟩)

/-- A round that is not stopped by its draw is the same with more attempts. -/
theorem round_of_more (wf : b.WellFormed) (size : b.size = t.size) {more : Nat}
    (le : attempts ≤ more) {outcome : Except Failure Unit} {p : Progress}
    (played : (t.round fns ⟨words, attempts⟩).exec ⟨b, [], drawn⟩ = (outcome, p))
    (decided : outcome ≠ .error (.fault .undecided)) :
    (t.round fns ⟨words, more⟩).exec ⟨b, [], drawn⟩ = (outcome, p) := by
  obtain ⟨arm, position, distribution, chosen⟩ := exists_chooses t fns wf size
  have decides : (distribution.reward fns).Decides ⟨words, attempts⟩ drawn := by
    intro undecided
    have stopped := chosen.exec_round_of_fault wf [] (Prod.ext undecided rfl)
    exact decided (Prod.mk.inj (played.symm.trans stopped)).1
  have same := (Distribution.made_reward fns distribution).sample_of_more le decides
  rw [← played]
  simp only [exec_round, chosen.choose wf, chosen.pull, same]

section Plays

variable {play : Play} (h : t.Plays fns words b drawn play b' drawn')
include h

theorem Plays.position_lt : play.position < t.size := by
  cases h with
  | intro chosen => exact (List.getElem?_eq_some_iff.mp chosen.known).1

theorem Plays.step : b.step (play.operation b.ids) = (b', .ok ()) := by
  cases h with
  | @intro arm position _ reward _ _ chosen _ taken =>
    have same : b.ids.getD position default = arm := by
      rw [List.getD_eq_getElem?_getD, chosen.place, Option.getD_some]
    rw [Play.operation, same]
    exact taken

theorem Plays.wellFormed (wf : b.WellFormed) : b'.WellFormed ∧ b'.index = b.index := by
  have kept := wf.step (play.operation b.ids)
  have fixed := (wf.step_fixed (play.operation b.ids)).1
  rw [h.step] at kept fixed
  exact ⟨kept, fixed⟩

theorem Plays.size (wf : b.WellFormed) (size : b.size = t.size) : b'.size = t.size := by
  rw [Bandit.size, (h.wellFormed wf).2]
  exact size

theorem Plays.total (wf : b.WellFormed) :
    b'.stats.total.toNat = b.stats.total.toNat + 1 := by
  cases h with
  | intro chosen yields taken =>
    have known := List.mem_of_getElem? chosen.place
    rw [Bandit.total_of_accepted wf.toReady taken, Bandit.observed_single wf.toReady known]
    rfl

theorem Plays.drawsReturn {steps : Nat} (return' : t.DrawsReturn fns words (steps + 1) b drawn) :
    t.DrawsReturn fns words steps b' drawn' :=
  fun _ _ _ rest few => return' _ _ _ (.cons h rest) (Nat.succ_lt_succ few)

end Plays

/-! ## A sequence of rounds -/

namespace Replay

variable {trace : List Play} (h : t.Replay fns words b drawn trace b' drawn')
include h

theorem position_lt : ∀ play ∈ trace, play.position < t.size := by
  induction h with
  | nil => simp
  | cons first _ ih => simpa using ⟨first.position_lt, ih⟩

theorem wellFormed (wf : b.WellFormed) : b'.WellFormed ∧ b'.index = b.index := by
  induction h with
  | nil => exact ⟨wf, rfl⟩
  | cons first _ ih =>
    obtain ⟨wf, index⟩ := first.wellFormed wf
    obtain ⟨wf, index'⟩ := ih wf
    exact ⟨wf, index'.trans index⟩

theorem total (wf : b.WellFormed) :
    b'.stats.total.toNat = b.stats.total.toNat + trace.length := by
  induction h with
  | nil => rfl
  | cons first _ ih =>
    rw [ih (first.wellFormed wf).1, first.total wf, List.length_cons]
    omega

theorem foldlM (wf : b.WellFormed) :
    (trace.map (Play.operation b.ids)).foldlM Bandit.apply b = .ok b' := by
  induction h with
  | nil => rfl
  | cons first _ ih =>
    obtain ⟨wf, index⟩ := first.wellFormed wf
    have rest := ih wf
    rw [Bandit.ids, index] at rest
    rw [List.map_cons, List.foldlM_cons, Bandit.apply_eq_ok_iff.mpr first.step]
    exact rest

end Replay

/-- What a round does, it does in the same way after earlier rounds. -/
theorem exec_round_following (earlier : List Play) (p : Progress) :
    (t.round fns source).exec (p.following earlier) =
      ((t.round fns source).exec p).map id (.following earlier) := by
  obtain ⟨b, trace, drawn⟩ := p
  simp only [exec_round, Progress.following]
  rcases choose fns b with e | ⟨arm, position⟩
  · rfl
  · dsimp only
    rcases (t.pull fns position).sample source drawn with ⟨e | reward, drawn⟩
    · rfl
    · dsimp only
      rcases b.step (.single arm reward) with ⟨bandit, e | u⟩ <;> simp [Progress.following]

theorem exec_rounds_following (earlier : List Play) (steps : Nat) (p : Progress) :
    (t.rounds fns source steps).exec (p.following earlier) =
      ((t.rounds fns source steps).exec p).map id (.following earlier) := by
  induction steps generalizing p with
  | zero => rfl
  | succ steps ih =>
    rw [exec_rounds_succ, exec_rounds_succ, exec_round_following]
    rcases (t.round fns source).exec p with ⟨e | u, p'⟩
    · rfl
    · exact ih p'

theorem exec_rounds_add (m n : Nat) (p : Progress) :
    (t.rounds fns source (m + n)).exec p =
      match (t.rounds fns source m).exec p with
      | (.ok (), p') => (t.rounds fns source n).exec p'
      | (.error e, p') => (.error e, p') := by
  induction m generalizing p with
  | zero =>
    rw [Nat.zero_add]
    rfl
  | succ m ih =>
    rw [Nat.add_right_comm, exec_rounds_succ, exec_rounds_succ]
    rcases (t.round fns source).exec p with ⟨e | u, p'⟩
    · rfl
    · exact ih p'

/-! ## A run -/

section Sized

variable {steps : Nat} (size : b.size = t.size)
include size

theorem run_zero : t.run fns source 0 b drawn = ⟨⟨b, [], drawn⟩, .ok ()⟩ := by
  rw [run_of_size size]
  rfl

theorem run_succ_of_error {e : Failure} {p : Progress}
    (failed : (t.round fns source).exec ⟨b, [], drawn⟩ = (.error e, p)) :
    t.run fns source (steps + 1) b drawn = ⟨p, .error e⟩ := by
  rw [run_of_size size, exec_rounds_succ, failed]
  rfl

theorem run_succ_of_ok {play : Play} (size' : b'.size = t.size)
    (played : (t.round fns source).exec ⟨b, [], drawn⟩ = (.ok (), ⟨b', [play], drawn'⟩)) :
    t.run fns source (steps + 1) b drawn =
      { t.run fns source steps b' drawn' with
        trace := play :: (t.run fns source steps b' drawn').trace } := by
  rw [run_of_size size, run_of_size size', exec_rounds_succ, played]
  exact congrArg Run.of (exec_rounds_following [play] steps ⟨b', [], drawn'⟩)

end Sized

/-- A run that leads through its trace to the bandit that it leaves, where `drawn'` words belong to
the rounds of the trace. -/
structure Replays (t : Testbed) (fns : Elementary) (words : WordStream) (b : Bandit) (drawn : Nat)
    (run : Run) (drawn' : Nat) : Prop where
  replay : t.Replay fns words b drawn run.trace run.bandit drawn'
  folded : (run.trace.map (Play.operation b.ids)).foldlM Bandit.apply b = .ok run.bandit
  total : run.bandit.stats.total.toNat = b.stats.total.toNat + run.trace.length
  positions : ∀ play ∈ run.trace, play.position < t.size

/-- How a run of at most `steps` rounds ends, if `drawn` words belong to the rounds that
succeed: after all of them, or with a round that breaks. -/
def Ends (t : Testbed) (fns : Elementary) (words : WordStream) (steps drawn : Nat) (run : Run) :
    Prop :=
  run.outcome = .ok () ∧ run.trace.length = steps ∧ run.drawn = drawn ∨
    ∃ cause, run.outcome = .error (.fault cause) ∧ run.trace.length < steps ∧
      t.Breaks fns words run.bandit drawn cause run.drawn

/-- A run that is stopped by a draw, after which `drawn` words belong to the rounds before. -/
def Stalls (t : Testbed) (fns : Elementary) (source : Source) (drawn : Nat) (run : Run) : Prop :=
  run.outcome = .error (.fault .undecided) ∧
    ∃ arm position distribution, t.Chooses fns run.bandit arm position distribution ∧
      ¬ (distribution.reward fns).Decides source drawn

theorem Replay.replays {run : Run} (wf : b.WellFormed)
    (h : t.Replay fns words b drawn run.trace run.bandit drawn') :
    t.Replays fns words b drawn run drawn' :=
  ⟨h, h.foldlM wf, h.total wf, h.position_lt⟩

/-- Whatever happens, a run replays its trace up to the bandit that it leaves. -/
theorem run_replay (fns : Elementary) (words : WordStream) (attempts : Nat) (wf : b.WellFormed)
    (size : b.size = t.size) (steps drawn : Nat) :
    ∃ drawn', t.Replay fns words b drawn (t.run fns ⟨words, attempts⟩ steps b drawn).trace
        (t.run fns ⟨words, attempts⟩ steps b drawn).bandit drawn' ∧
      (t.Ends fns words steps drawn' (t.run fns ⟨words, attempts⟩ steps b drawn) ∨
        t.Stalls fns ⟨words, attempts⟩ drawn' (t.run fns ⟨words, attempts⟩ steps b drawn)) := by
  induction steps generalizing b drawn with
  | zero =>
    rw [run_zero size]
    exact ⟨drawn, .nil b drawn, .inl (.inl ⟨rfl, rfl, rfl⟩)⟩
  | succ steps ih =>
    rcases round_cases fns words attempts drawn wf size with
      ⟨play, b', drawn', plays, played⟩ | ⟨cause, drawn', breaks, failed⟩ |
        ⟨arm, position, distribution, drawn', chosen, undecided, failed⟩
    · have size' := plays.size wf size
      obtain ⟨drawn'', replay, ends⟩ := ih (plays.wellFormed wf).1 size' drawn'
      rw [run_succ_of_ok size size' played]
      refine ⟨drawn'', .cons plays replay, ends.imp_left fun ends => ?_⟩
      rcases ends with ⟨ok, length, last⟩ | ⟨cause, error, few, breaks⟩
      · exact .inl ⟨ok, congrArg (· + 1) length, last⟩
      · exact .inr ⟨cause, error, Nat.succ_lt_succ few, breaks⟩
    · rw [run_succ_of_error size failed]
      exact ⟨drawn, .nil b drawn, .inl (.inr ⟨cause, rfl, Nat.succ_pos steps, breaks⟩)⟩
    · rw [run_succ_of_error size failed]
      exact ⟨drawn, .nil b drawn, .inr ⟨rfl, arm, position, distribution, chosen, undecided⟩⟩

/-- A run that is not stopped by a draw is the same with more attempts. -/
theorem run_of_more (wf : b.WellFormed) (size : b.size = t.size) {more : Nat}
    (le : attempts ≤ more) {steps : Nat}
    (decided : (t.run fns ⟨words, attempts⟩ steps b drawn).outcome ≠
      .error (.fault .undecided)) :
    t.run fns ⟨words, more⟩ steps b drawn = t.run fns ⟨words, attempts⟩ steps b drawn := by
  induction steps generalizing b drawn with
  | zero => rw [run_zero size, run_zero size]
  | succ steps ih =>
    rcases round_cases fns words attempts drawn wf size with
      ⟨play, b', drawn', plays, played⟩ | ⟨cause, drawn', -, failed⟩ | ⟨_, _, _, _, -, -, failed⟩
    · have size' := plays.size wf size
      have again := round_of_more wf size le played (by simp)
      rw [run_succ_of_ok size size' played] at decided ⊢
      rw [run_succ_of_ok size size' again, ih (plays.wellFormed wf).1 size' decided]
    · rw [run_succ_of_error size failed] at decided ⊢
      exact run_succ_of_error size (round_of_more wf size le failed decided)
    · rw [run_succ_of_error size failed] at decided
      exact absurd rfl decided

/-- If the draws return, there are enough attempts for the whole run. -/
theorem exists_attempts (wf : b.WellFormed) (size : b.size = t.size) {steps : Nat}
    (return' : t.DrawsReturn fns words steps b drawn) :
    ∃ attempts, (t.run fns ⟨words, attempts⟩ steps b drawn).outcome ≠
      .error (.fault .undecided) := by
  induction steps generalizing b drawn with
  | zero => exact ⟨0, by simp [run_zero size]⟩
  | succ steps ih =>
    obtain ⟨arm, position, distribution, chosen⟩ := exists_chooses t fns wf size
    obtain ⟨outcome, drawn', yields⟩ :=
      return' [] b drawn (.nil b drawn) (Nat.succ_pos steps) _ _ _ chosen
    obtain ⟨few, settled⟩ := yields.settled
    rcases round_of_yields wf chosen yields with
      ⟨play, b', plays, played⟩ | ⟨cause, breaks, failed⟩
    · -- The first draw and the later ones each have a number of their own, and the greater one
      -- of both is enough for all.
      have size' := plays.size wf size
      have wf' := (plays.wellFormed wf).1
      obtain ⟨later, decided⟩ := ih wf' size' (plays.drawsReturn return')
      refine ⟨max few later, ?_⟩
      rw [run_succ_of_ok size size' (played _ (settled _ (le_max_left _ _))),
        run_of_more wf' size' (le_max_right few later) decided]
      exact decided
    · refine ⟨few, ?_⟩
      rw [run_succ_of_error size (failed few (settled few le_rfl))]
      cases breaks <;> simp

/-- The draws of Bernoulli arms always return. -/
theorem drawsReturn_of_bernoulli
    (bernoulli : ∀ distribution ∈ t.arms, ∃ p, distribution = .bernoulli p) (steps : Nat) :
    t.DrawsReturn fns words steps b drawn := by
  intro _ _ drawn' _ _ _ _ _ chosen
  obtain ⟨p, rfl⟩ := bernoulli _ (List.mem_of_getElem? chosen.known)
  exact Distribution.returns_bernoulli fns p words drawn'

/-- For a single round it is enough that every arm can be drawn now. -/
theorem drawsReturn_one
    (h : ∀ distribution ∈ t.arms, (distribution.reward fns).Returns words drawn) :
    t.DrawsReturn fns words 1 b drawn := by
  intro trace b' drawn' replay none arm position distribution chosen
  obtain rfl : trace = [] := List.length_eq_zero_iff.mp (Nat.lt_one_iff.mp none)
  cases replay with
  | nil => exact h distribution (List.mem_of_getElem? chosen.known)

/-- A run that is cut in two and then goes on is the same run. -/
theorem run_add (wf : b.WellFormed) (m n drawn : Nat) :
    t.run fns source (m + n) b drawn =
      (t.run fns source m b drawn).andThen (t.run fns source n) := by
  by_cases size : b.size = t.size
  · obtain ⟨drawn', replay, -⟩ := run_replay fns source.words source.attempts wf size m drawn
    have size' : (t.run fns source m b drawn).bandit.size = t.size := by
      rw [Bandit.size, (replay.wellFormed wf).2]
      exact size
    rw [run_of_size size] at size'
    rw [run_of_size size, run_of_size size, exec_rounds_add]
    rcases first : (t.rounds fns source m).exec ⟨b, [], drawn⟩ with ⟨e | u, p⟩
    · rfl
    · rw [first] at size'
      have rest : (t.rounds fns source n).exec p =
          ((t.rounds fns source n).exec ⟨p.bandit, [], p.drawn⟩).map id (.following p.trace) := by
        rw [← exec_rounds_following, Progress.following, List.append_nil]
      have second : t.run fns source n p.bandit p.drawn =
          .of ((t.rounds fns source n).exec ⟨p.bandit, [], p.drawn⟩) := run_of_size size' n p.drawn
      simp only [Run.andThen, Run.of, rest, second]
      rfl
  · rw [run_of_size_ne size, run_of_size_ne size]
    rfl

/-- A run is the replay of its trace: it takes the arms that the bandit chooses and the rewards
that the stream yields, and it can be cut anywhere. If no draw stops it, it ends after all rounds or
where a round breaks, and it is the same with more attempts. There are enough attempts for that if
the draws return. -/
theorem run_is_replay (reachable : b.Reachable) (t : Testbed) (fns : Elementary)
    (words : WordStream) (steps drawn : Nat) :
    (b.size ≠ t.size → ∀ attempts, t.run fns ⟨words, attempts⟩ steps b drawn =
      ⟨⟨b, [], drawn⟩, .error (.rejected (.shapeMismatch .testbedArms b.size t.size))⟩) ∧
    (b.size = t.size → ∀ attempts, ∃ drawn',
      t.Replays fns words b drawn (t.run fns ⟨words, attempts⟩ steps b drawn) drawn' ∧
      ((t.run fns ⟨words, attempts⟩ steps b drawn).outcome ≠ .error (.fault .undecided) →
        t.Ends fns words steps drawn' (t.run fns ⟨words, attempts⟩ steps b drawn) ∧
        ∀ more, attempts ≤ more →
          t.run fns ⟨words, more⟩ steps b drawn = t.run fns ⟨words, attempts⟩ steps b drawn)) ∧
    (b.size = t.size → t.DrawsReturn fns words steps b drawn → ∃ attempts,
      (t.run fns ⟨words, attempts⟩ steps b drawn).outcome ≠ .error (.fault .undecided)) ∧
    ∀ attempts more, t.run fns ⟨words, attempts⟩ (steps + more) b drawn =
      (t.run fns ⟨words, attempts⟩ steps b drawn).andThen (t.run fns ⟨words, attempts⟩ more) := by
  have wf := reachable.wellFormed
  refine ⟨fun size _ => run_of_size_ne size steps drawn, fun size attempts => ?_,
    fun size return' => exists_attempts wf size return',
    fun attempts more => run_add wf steps more drawn⟩
  obtain ⟨drawn', replay, ends⟩ := run_replay fns words attempts wf size steps drawn
  refine ⟨drawn', replay.replays wf, fun decided => ⟨?_, fun more le => ?_⟩⟩
  · exact ends.resolve_right fun stalls => decided stalls.1
  · exact run_of_more wf size le decided

/-- A round on an arm that always yields one, and then a round on an arm that never does. If
instead the second arm has no probability, its round breaks and the bandit is left as the first
round has left it. A draw of a normal arm needs an attempt. -/
theorem run_is_replay_of_two_rounds : ∃ (b : Bandit) (t broken normal single : Testbed)
    (fns : Elementary) (words : WordStream), b.Reachable ∧ b.size = t.size ∧
    (t.run fns ⟨words, 0⟩ 2 b 0).trace = [⟨0, 1⟩, ⟨1, 0⟩] ∧
    [.single (.ofInt 0) 1, .single (.ofInt 1) 0].foldlM Bandit.apply b =
      .ok (t.run fns ⟨words, 0⟩ 2 b 0).bandit ∧
    (t.run fns ⟨words, 0⟩ 2 b 0).bandit.stats.total.toNat = 2 ∧
    (∀ attempts, t.run fns ⟨words, attempts⟩ 2 b 0 = t.run fns ⟨words, 0⟩ 2 b 0) ∧
    t.run fns ⟨words, 0⟩ 2 b 0 =
      (t.run fns ⟨words, 0⟩ 1 b 0).andThen (t.run fns ⟨words, 0⟩ 1) ∧
    (broken.run fns ⟨words, 0⟩ 2 b 0).outcome = .error (.fault .invalidProbability) ∧
    [.single (.ofInt 0) 1].foldlM Bandit.apply b = .ok (broken.run fns ⟨words, 0⟩ 2 b 0).bandit ∧
    (normal.run fns ⟨words, 0⟩ 1 b 0).outcome = .error (.fault .undecided) ∧
    (∃ attempts, (normal.run fns ⟨words, attempts⟩ 1 b 0).outcome ≠
      .error (.fault .undecided)) ∧
    single.run fns ⟨words, 0⟩ 2 b 0 =
      ⟨⟨b, [], 0⟩, .error (.rejected (.shapeMismatch .testbedArms b.size single.size))⟩ := by
  obtain ⟨b, hb, -, reachable⟩ :=
    Bandit.exists_create (.count 2) .ucb1 (by decide) (by decide)
  obtain ⟨fns, hfns⟩ : ∃ fns : Elementary, ⟨fun _ => 0, fun _ => 0⟩ = fns := ⟨_, rfl⟩
  obtain ⟨words, hwords⟩ : ∃ words : WordStream, (fun _ => 0x8000000000000001) = words := ⟨_, rfl⟩
  obtain ⟨t, ht⟩ : ∃ t, Testbed.mk [.bernoulli 1, .bernoulli 0] = t := ⟨_, rfl⟩
  obtain ⟨broken, hbroken⟩ : ∃ t, Testbed.mk [.bernoulli 1, .bernoulli 2] = t := ⟨_, rfl⟩
  obtain ⟨normal, hnormal⟩ : ∃ t, Testbed.mk [.gaussian 0 1, .gaussian 0 1] = t := ⟨_, rfl⟩
  have size : b.size = t.size ∧ b.size = broken.size ∧ b.size = normal.size := by
    rw [← hb, ← ht, ← hbroken, ← hnormal]
    decide
  have fresh : b.stats.total.toNat = 0 := by
    rw [← hb]
    rfl
  have played : (t.run fns ⟨words, 0⟩ 2 b 0).trace = [⟨0, 1⟩, ⟨1, 0⟩] ∧
      (t.run fns ⟨words, 0⟩ 2 b 0).outcome = .ok () := by
    rw [← hb, ← ht, ← hfns, ← hwords]
    decide +kernel
  have failed : (broken.run fns ⟨words, 0⟩ 2 b 0).trace = [⟨0, 1⟩] ∧
      (broken.run fns ⟨words, 0⟩ 2 b 0).outcome = .error (.fault .invalidProbability) := by
    rw [← hb, ← hbroken, ← hfns, ← hwords]
    decide +kernel
  have stopped : (normal.run fns ⟨words, 0⟩ 1 b 0).outcome = .error (.fault .undecided) := by
    rw [← hb, ← hnormal, ← hfns, ← hwords]
    decide +kernel
  have decided : ((Distribution.gaussian 0 1).reward fns).sample ⟨words, 1⟩ 0 = (.ok 0, 1) := by
    rw [← hfns, ← hwords]
    decide +kernel
  have returns : ((Distribution.gaussian 0 1).reward fns).Returns words 0 :=
    ⟨_, _, (Distribution.made_reward fns (.gaussian 0 1)).yields decided (by simp)⟩
  have operations : [⟨0, 1⟩, ⟨1, 0⟩].map (Play.operation b.ids) =
      [.single (.ofInt 0) 1, .single (.ofInt 1) 0] ∧
      [⟨0, 1⟩].map (Play.operation b.ids) = [.single (.ofInt 0) 1] := by
    rw [← hb]
    decide
  obtain ⟨-, replays, -, -⟩ := run_is_replay reachable t fns words 2 0
  obtain ⟨_, replay, more⟩ := replays size.1 0
  obtain ⟨-, -, -, cut⟩ := run_is_replay reachable t fns words 1 0
  obtain ⟨-, replays', -, -⟩ := run_is_replay reachable broken fns words 2 0
  obtain ⟨_, replay', -⟩ := replays' size.2.1 0
  obtain ⟨-, -, enough, -⟩ := run_is_replay reachable normal fns words 1 0
  obtain ⟨mismatch, -⟩ := run_is_replay reachable ⟨[.bernoulli 1]⟩ fns words 2 0
  have folded := replay.folded
  rw [played.1, operations.1] at folded
  have total := replay.total
  rw [played.1, fresh] at total
  have folded' := replay'.folded
  rw [failed.1, operations.2] at folded'
  refine ⟨b, t, broken, normal, ⟨[.bernoulli 1]⟩, fns, words, reachable, size.1, played.1, folded,
    total, fun attempts => (more (by simp [played.2])).2 attempts (Nat.zero_le _), cut 0 1,
    failed.2, folded', stopped, enough size.2.2 (drawsReturn_one ?_), mismatch ?_ 0⟩
  · simpa [← hnormal] using returns
  · rw [← hb]
    decide

end Testbed

end UpperConfidence
