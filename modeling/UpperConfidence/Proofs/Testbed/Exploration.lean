import UpperConfidence.Proofs.Score.Unplayed

/-!
# Exploration

A bandit explores before it exploits: whatever it has seen, it first plays the arms
without observations, each once and in order. On a testbed of Bernoulli arms a round
of such an arm leaves the other arms as they are and its own totals of moderate size,
so the next round goes on with the next arm. A new bandit starts with all of its arms.
-/

namespace UpperConfidence

open Double

namespace Bandit

/-- The next choice is an arm without observations, if there is one. -/
structure Explorable (b : Bandit) (n : ℕ) : Prop extends WellFormed b where
  tallied : b.Tallied n
  moderate : b.Moderate

variable {b b' : Bandit} {n : ℕ} {arm : ArmId} {r : Float}

theorem tame_entry (binary : r = 0 ∨ r = 1) (col : Column) : Tame 501 (col.entry r) := by
  have zero : Tame 501 0 := (within_zero 501).tame
  have unit : Tame 1 1 := .inr ⟨1, value_one, by norm_num⟩
  have one : Tame 501 1 := unit.mono (by omega)
  rcases binary with rfl | rfl <;> cases col <;> assumption

section Single

variable {i : ℕ} {us : List ℕ} (wf : b.WellFormed) (place : b.ids[i]? = some arm)
  (accepted : b.step (.single arm r) = (b', .ok ()))
include wf place accepted

/-- After an observation of an unplayed arm it is played, and the other counts are as before. -/
theorem counts_of_single (none : b.stats.counts[i]? = some 0) :
    b'.stats.counts[i]? ≠ some 0 ∧ ∀ j, j ≠ i → b'.stats.counts[j]? = b.stats.counts[j]? := by
  have column : b'.stats.counts ∈ b'.stats.column .counts := rfl
  obtain ⟨counts, hcounts, ⟨c, before, after⟩, others⟩ := grownAt_of_single wf accepted place column
  obtain rfl : b.stats.counts = counts := Option.some_inj.mp hcounts
  obtain rfl : 0 = c := Option.some_inj.mp (none.symm.trans before)
  refine ⟨?_, others⟩
  rw [after, ne_eq, Option.some_inj, Column.entry]
  decide

theorem unplayed_of_single (first : b.unplayed = i :: us) : b'.unplayed = us := by
  have index := (wf.step_fixed (.single arm r)).1
  rw [accepted] at index
  have size : b'.size = b.size := congrArg ArmIndex.size index
  obtain ⟨-, none⟩ := mem_unplayed_iff.mp (first ▸ List.mem_cons_self)
  obtain ⟨played, others⟩ := counts_of_single wf place accepted none
  have later : ∀ j ∈ us, j ≠ i := fun j mem => (lt_of_mem_unplayed first mem).ne'
  calc b'.unplayed = b.unplayed.filter (· ≠ i) := by
        rw [unplayed, unplayed, size, List.filter_filter]
        refine List.filter_congr fun j _ => ?_
        by_cases here : j = i
        · simp [here, played]
        · simp [here, others j here]
    _ = us := by
        rw [first, List.filter_cons_of_neg (by simp), List.filter_eq_self]
        simpa using later

/-- An unplayed arm has room for one reward, and the others keep theirs. -/
theorem Moderate.single (h : b.Moderate) (none : b.stats.counts[i]? = some 0)
    (binary : r = 0 ∨ r = 1) : b'.Moderate := by
  obtain ⟨played, others⟩ := counts_of_single wf place accepted none
  constructor
  · intro col other xs' hx' x mem
    obtain ⟨xs, hx, ⟨y, old, new⟩, same⟩ := grownAt_of_single wf accepted place hx'
    obtain ⟨j, hj, rfl⟩ := List.getElem_of_mem mem
    have entry := List.getElem?_eq_getElem hj
    by_cases here : j = i
    · subst here
      obtain ⟨v, hy, small⟩ := h.unplayed col other xs hx j y old none
      rw [new, Option.some_inj] at entry
      rw [← entry]
      exact tame_add (by omega) (.inr ⟨v, hy, small⟩) (tame_entry binary col)
    · rw [same j here] at entry
      exact h.tame col other xs hx _ (List.mem_of_getElem? entry)
  · intro col other xs' hx' j x entry zero
    obtain ⟨xs, hx, -, same⟩ := grownAt_of_single wf accepted place hx'
    have here : j ≠ i := by
      rintro rfl
      exact played zero
    rw [same j here] at entry
    rw [others j here] at zero
    exact h.unplayed col other xs hx j x entry zero

end Single

/-- A round of the first unplayed arm leaves the other unplayed arms to be played. -/
theorem Explorable.single (h : b.Explorable n) (bound : n + 1 ≤ 2 ^ 53) {i : ℕ} {us : List ℕ}
    (first : b.unplayed = i :: us) (place : b.ids[i]? = some arm) (binary : r = 0 ∨ r = 1)
    (accepted : b.step (.single arm r) = (b', .ok ())) :
    b'.Explorable (n + 1) ∧ b'.unplayed = us := by
  have wf := h.toWellFormed
  have wf' := wf.step (.single arm r)
  rw [accepted] at wf'
  obtain ⟨-, none⟩ := mem_unplayed_iff.mp (first ▸ List.mem_cons_self)
  have one : (Operation.single arm r).counts.Counting 1 :=
    Values.counting_cons_iff.mpr ⟨1, 0, by simp, Values.counting_nil_iff.mpr rfl, rfl⟩
  exact ⟨⟨wf', h.tallied.step wf accepted one bound,
    h.moderate.single wf place accepted none binary⟩, unplayed_of_single wf place accepted first⟩

end Bandit

namespace Testbed

variable {t : Testbed} {fns : Elementary} {words : WordStream} {b b' : Bandit} {n : ℕ}
  {drawn drawn' : ℕ}

/-- All arms are Bernoulli arms with probabilities between zero and one. -/
def IsBernoulli (t : Testbed) : Prop :=
  ∀ distribution ∈ t.arms, ∃ p, distribution = .bernoulli p ∧ 0 ≤ p ∧ p ≤ 1

/-- The attempts do not stop a run of Bernoulli arms. -/
theorem IsBernoulli.not_stalls (valid : t.IsBernoulli) {source : Source} {run : Run} :
    ¬ t.Stalls fns source drawn run := by
  rintro ⟨-, arm, position, distribution, chosen, undecided⟩
  obtain ⟨p, rfl, -⟩ := valid _ (List.mem_of_getElem? chosen.known)
  exact undecided (Distribution.decides_bernoulli fns p source drawn)

theorem Plays.binary (valid : t.IsBernoulli) {play : Play}
    (plays : t.Plays fns words b drawn play b' drawn') : play.reward = 0 ∨ play.reward = 1 := by
  cases plays with
  | intro chosen yields taken =>
    obtain ⟨p, rfl, nonneg, le⟩ := valid _ (List.mem_of_getElem? chosen.known)
    rcases Distribution.yields_bernoulli fns p words drawn with
      ⟨-, -, reward, after, binary, yields'⟩ | ⟨outside, -⟩
    · obtain ⟨same, -⟩ := yields.unique yields'
      cases same
      exact binary
    · exact absurd ⟨nonneg, le⟩ outside

/-- Only an overflow breaks a round of valid Bernoulli arms. -/
theorem Breaks.full (valid : t.IsBernoulli) {cause : Fault}
    (breaks : t.Breaks fns words b drawn cause drawn') : b.stats.total.toNat = 2 ^ 64 - 1 := by
  cases breaks with
  | invalid chosen outside =>
    obtain ⟨p, same, nonneg, le⟩ := valid _ (List.mem_of_getElem? chosen.known)
    obtain rfl := Distribution.bernoulli.inj same
    exact absurd ⟨nonneg, le⟩ outside
  | overflow chosen yields full => exact full

/-- The plays of a testbed begin with the unplayed arms, in order. -/
theorem Replay.explores (valid : t.IsBernoulli) (law : LogBound fns.ln) {trace : List Play}
    (replay : t.Replay fns words b drawn trace b' drawn') (h : b.Explorable n)
    (bound : n + trace.length ≤ 2 ^ 53) :
    (trace.map Play.position).take b.unplayed.length = b.unplayed.take trace.length := by
  induction replay generalizing n with
  | nil => simp
  | @cons b b₁ b' drawn _ _ play trace first _ ih =>
    rw [List.length_cons] at bound
    cases unplayed : b.unplayed with
    | nil => simp
    | cons i us =>
      obtain ⟨arm, place, action⟩ := Bandit.action_of_unplayed h.toWellFormed h.tallied (by omega)
        h.moderate law unplayed
      have binary := first.binary valid
      cases first with
      | @intro arm' position _ _ _ _ chosen _ taken =>
        obtain rfl : arm = arm' := Except.ok.inj (action.symm.trans chosen.action)
        have here : position = i := by
          obtain ⟨hp, -⟩ := List.getElem?_eq_some_iff.mp chosen.place
          exact (List.getElem?_inj hp h.nodup).mp (chosen.place.trans place.symm)
        obtain ⟨h', rest⟩ := h.single (by omega) unplayed place binary taken
        have tail := ih h' (by omega)
        rw [rest] at tail
        simp [here, tail]

end Testbed

namespace Bandit

/-- On every testbed of valid Bernoulli arms and for every source of words, a bandit first plays
its unplayed arms, in order. -/
def Explores (fns : Elementary) (b : Bandit) : Prop :=
  ∀ (t : Testbed) (source : Source) (drawn steps : ℕ), t.size = b.size → t.IsBernoulli →
    steps ≤ 2 ^ 52 →
    (t.run fns source steps b drawn).outcome = .ok () ∧
    (t.run fns source steps b drawn).trace.length = steps ∧
    ((t.run fns source steps b drawn).trace.map Play.position).take b.unplayed.length =
      b.unplayed.take steps

variable {b : Bandit} {n : ℕ} {fns : Elementary}

theorem Explorable.explores (h : b.Explorable n) (bound : n ≤ 2 ^ 52) (law : LogBound fns.ln) :
    b.Explores fns := by
  intro t source drawn steps size valid few
  obtain ⟨drawn', replay, ends⟩ :=
    Testbed.run_replay fns source.words source.attempts h.toWellFormed size.symm steps drawn
  rcases ends.resolve_right valid.not_stalls with ⟨ok, length, -⟩ | ⟨cause, -, length, breaks⟩
  · have plays := replay.explores valid law h (by omega)
    rw [length] at plays
    exact ⟨ok, length, plays⟩
  · have full := breaks.full valid
    rw [replay.total h.toWellFormed, h.tallied.total] at full
    omega

theorem explorable_of_create {config : Config} (created : create config = .ok b) :
    b.Explorable 0 := by
  have zero {m : ℕ} : ∀ x ∈ Values.zeros m, ∃ v, value x = some v ∧ |v| ≤ 2 ^ 500 := by
    intro x mem
    obtain rfl : x = 0 := List.eq_of_mem_replicate mem
    exact ⟨0, value_zero, by simp⟩
  refine ⟨(wellFormed_of_create created).1, tallied_of_create created, moderate_of_le ?_ ?_⟩
  · rw [stats_of_create created]
    exact zero
  · rw [stats_of_create created]
    intro qs given
    obtain ⟨-, same⟩ := Option.ite_none_right_eq_some.mp given
    exact Option.some_inj.mp same ▸ zero

/-- Whatever a bandit has seen, within the limits, it plays its unplayed arms first and in order.
A new bandit plays all of its arms. -/
theorem explores_unplayed {config : Config} {start b : Bandit}
    (created : create config = .ok start) (activities : List Activity)
    (reached : start.history activities = b)
    (counts : Values.Counting ((start.accepted activities).flatMap Operation.counts) n)
    (bound : n ≤ 2 ^ 52)
    (rewards : ∀ x ∈ b.stats.rewards, ∃ v, value x = some v ∧ |v| ≤ 2 ^ 500)
    (squares : ∀ qs ∈ b.stats.squares, ∀ x ∈ qs, ∃ v, value x = some v ∧ |v| ≤ 2 ^ 500)
    (law : LogBound fns.ln) :
    (∀ i us, b.unplayed = i :: us → ∃ arm, b.ids[i]? = some arm ∧ b.action fns.ln = .ok arm) ∧
    b.Explores fns ∧ start.Explores fns ∧ start.unplayed = List.range start.size := by
  have explorable : b.Explorable n := by
    refine ⟨?_, ?_, moderate_of_le rewards squares⟩
    · rw [← reached]
      exact ((wellFormed_of_create created).1.history activities).1
    · rw [← reached]
      exact tallied_of_history created counts (by omega)
  refine ⟨fun i us first => ?_, explorable.explores bound law,
    (explorable_of_create created).explores (by omega) law, unplayed_of_create created⟩
  exact action_of_unplayed explorable.toWellFormed explorable.tallied (by omega)
    explorable.moderate law first

/-- Of three arms the second has been played, so the first and the third come next, for any words. -/
theorem explores_unplayed_of_three_arms : ∃ (b : Bandit) (t : Testbed) (fns : Elementary),
    b.Reachable ∧ b.stats.counts = [0, 1, 0] ∧ t.IsBernoulli ∧ fns.ln 2 = 0.6931471805599453 ∧
    ∀ source, (t.run fns source 2 b 0).outcome = .ok () ∧
      (t.run fns source 2 b 0).trace.map Play.position = [0, 2] := by
  have law : LogBound fun x => if x = 2 then 0.6931471805599453 else
      if x = 3 then 1.0986122886681098 else 0 := by
    constructor <;> intro x _ _ <;> split
    · decide
    · split <;> decide
    · decide
    · split <;> decide
  obtain ⟨fns, hfns⟩ : ∃ fns : Elementary, ⟨fun x => if x = 2 then 0.6931471805599453 else
      if x = 3 then 1.0986122886681098 else 0, fun _ => 1⟩ = fns := ⟨_, rfl⟩
  obtain ⟨start, hs, created, -⟩ := exists_create (.count 3) .tuned (by decide) (by decide)
  obtain ⟨b, reached⟩ : ∃ b, start.history [.operation (.single (.ofInt 1) 1)] = b := ⟨_, rfl⟩
  have accepted : start.accepted [.operation (.single (.ofInt 1) 1)] =
      [.single (.ofInt 1) 1] := by
    rw [← hs]
    decide +kernel
  have counts : Values.Counting
      ((start.accepted [.operation (.single (.ofInt 1) 1)]).flatMap Operation.counts) 1 := by
    rw [accepted]
    exact Values.counting_cons_iff.mpr ⟨1, 0, by simp, Values.counting_nil_iff.mpr rfl, rfl⟩
  have totals : b.stats = ⟨1, [0, 1, 0], [0, 1, 0], some [0, 1, 0]⟩ ∧ b.size = 3 := by
    rw [← reached, ← hs]
    decide +kernel
  obtain ⟨stats, size⟩ := totals
  have moderate : ∀ x ∈ ([0, 1, 0] : Values), ∃ v, value x = some v ∧ |v| ≤ 2 ^ 500 := by
    intro x mem
    rcases (by simpa [or_comm] using mem : x = 0 ∨ x = 1) with rfl | rfl
    · exact ⟨0, value_zero, by simp⟩
    · exact ⟨1, value_one, by rw [abs_one]; exact one_le_pow₀ (by norm_num)⟩
  obtain ⟨t, ht⟩ : ∃ t, Testbed.mk [.bernoulli 0.5, .bernoulli 0, .bernoulli 1] = t := ⟨_, rfl⟩
  have valid : t.IsBernoulli := by
    rw [← ht]
    intro distribution mem
    simp only [List.mem_cons, List.not_mem_nil, or_false] at mem
    rcases mem with rfl | rfl | rfl <;> exact ⟨_, rfl, by decide +kernel, by decide +kernel⟩
  have unplayed : b.unplayed = [0, 2] := by
    rw [Bandit.unplayed, stats, size]
    decide +kernel
  obtain ⟨-, explores, -⟩ := explores_unplayed created _ reached counts (by decide)
    (by rw [stats]; exact moderate)
    (by rw [stats]; rintro qs given; obtain rfl := Option.some_inj.mp given; exact moderate)
    (show LogBound fns.ln by rw [← hfns]; exact law)
  refine ⟨b, t, fns, ⟨_, _, _, created, reached⟩, by rw [stats], valid, by rw [← hfns]; simp,
    fun source => ?_⟩
  obtain ⟨ok, length, plays⟩ := explores t source 0 2 (by rw [size, ← ht]; rfl) valid (by decide)
  refine ⟨ok, ?_⟩
  rw [unplayed] at plays
  rwa [List.take_of_length_le (by simp [length])] at plays

end Bandit

end UpperConfidence
