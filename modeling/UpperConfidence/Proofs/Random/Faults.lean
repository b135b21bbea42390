import UpperConfidence.Proofs.Double.Value
import UpperConfidence.Testbed.Distribution

/-!
# Faults of samplers

With fewer attempts than it needs a draw is undecided, and with more it is always
the same. So what a draw yields is a property of the words alone. A normal draw
yields nothing but numbers. A Bernoulli draw needs a probability between zero and
one: with one it yields whether its event occurs, and without one it fails before
it has drawn a word.
-/

namespace UpperConfidence

namespace Sampler

/-- The draw is decided within the attempts of the source. -/
def Decides {α : Type} (s : Sampler α) (source : Source) (drawn : Nat) : Prop :=
  (s.sample source drawn).1 ≠ .error .undecided

/-- How a draw ends and how many words have been drawn then, if it may take as many attempts as
it needs. -/
structure Yields {α : Type} (s : Sampler α) (words : WordStream) (drawn : Nat)
    (outcome : Except Fault α) (drawn' : Nat) : Prop where
  decided : outcome ≠ .error .undecided
  settled : ∃ few, ∀ attempts, few ≤ attempts →
    s.sample ⟨words, attempts⟩ drawn = (outcome, drawn')

/-- Some number of attempts is enough for the draw. -/
def Returns {α : Type} (s : Sampler α) (words : WordStream) (drawn : Nat) : Prop :=
  ∃ outcome drawn', s.Yields words drawn outcome drawn'

/-- Samplers that are made of words, one after the other or by rejection, and raise no other
faults than some given ones. -/
inductive Made (faults : List Fault) : {α : Type} → Sampler α → Prop
  | pure {α : Type} (a : α) : Made faults (pure a)
  | word : Made faults word
  | throw {α : Type} {fault : Fault} (mem : fault ∈ faults) : Made faults (throw fault : Sampler α)
  | bind {α β : Type} {s : Sampler α} {f : α → Sampler β} (first : Made faults s)
      (next : ∀ a, Made faults (f a)) : Made faults (s >>= f)
  | untilDecided {α : Type} {attempt : Sampler (Option α)} (h : Made faults attempt) :
      Made faults (untilDecided attempt)

variable {α β : Type} {faults : List Fault} {s : Sampler α}

/-- What is done in two steps fails in one of them. -/
theorem error_of_bind {f : α → Sampler β} {source : Source} {drawn drawn' : Nat} {cause : Fault}
    (failed : (s >>= f).sample source drawn = (.error cause, drawn')) :
    s.sample source drawn = (.error cause, drawn') ∨
      ∃ a after, (f a).sample source after = (.error cause, drawn') := by
  rw [sample_bind] at failed
  rcases sampled : s.sample source drawn with ⟨fault | a, after⟩
  · rw [sampled] at failed
    cases failed
    exact .inl rfl
  · rw [sampled] at failed
    exact .inr ⟨a, after, failed⟩

/-- Nothing else is raised, but that the attempts are used up. -/
theorem Made.fault (made : s.Made faults) {source : Source} {drawn drawn' : Nat} {cause : Fault}
    (failed : s.sample source drawn = (.error cause, drawn')) :
    cause ∈ faults ∨ cause = .undecided := by
  induction made generalizing drawn drawn' with
  | pure a => cases (sample_pure a source drawn).symm.trans failed
  | word => cases (sample_word source drawn).symm.trans failed
  | throw mem =>
    cases (sample_throw _ source drawn).symm.trans failed
    exact .inl mem
  | bind _ _ first next =>
    rcases error_of_bind failed with here | ⟨a, after, later⟩
    · exact first here
    · exact next a later
  | @untilDecided _ attempt _ ih =>
    rw [sample_untilDecided] at failed
    generalize source.attempts = limit at failed
    induction limit generalizing drawn with
    | zero =>
      cases (sample_throw _ source drawn).symm.trans failed
      exact .inr rfl
    | succ limit again =>
      rcases error_of_bind failed with here | ⟨decided, after, later⟩
      · exact ih here
      · cases decided with
        | none => exact again later
        | some a => cases (sample_pure a source after).symm.trans later

/-- Two sources agree on a draw in two steps, if they agree on each step that is decided. -/
theorem sample_bind_agree {f g : α → Sampler β} {source source' : Source} {drawn : Nat}
    (first : s.Decides source drawn → s.sample source' drawn = s.sample source drawn)
    (next : ∀ a after, (f a).Decides source after →
      (g a).sample source' after = (f a).sample source after)
    (decides : (s >>= f).Decides source drawn) :
    (s >>= g).sample source' drawn = (s >>= f).sample source drawn := by
  rw [Decides, sample_bind] at decides
  rw [sample_bind, sample_bind]
  rcases sampled : s.sample source drawn with ⟨fault | a, after⟩
  · have here : s.Decides source drawn := by simpa [Decides, sampled] using decides
    rw [first here, sampled]
  · have here : s.Decides source drawn := by simp [Decides, sampled]
    rw [sampled] at decides
    rw [first here, sampled]
    exact next a after decides

/-- A draw that is decided is the same with more attempts. -/
theorem Made.sample_of_more (made : s.Made faults) {source : Source} {drawn attempts : Nat}
    (more : source.attempts ≤ attempts) (decides : s.Decides source drawn) :
    s.sample { source with attempts } drawn = s.sample source drawn := by
  induction made generalizing drawn with
  | pure a => rfl
  | word => rfl
  | throw mem => rfl
  | bind _ _ first next => exact sample_bind_agree first (fun a _ => next a) decides
  | @untilDecided _ attempt _ ih =>
    -- Both loops make the same attempts, so they are compared for any numbers of attempts that
    -- are left, while the sources stay what they are.
    have loop (few many drawn : Nat) (le : few ≤ many)
        (decides : (retry attempt few).Decides source drawn) :
        (retry attempt many).sample { source with attempts } drawn =
          (retry attempt few).sample source drawn := by
      induction few generalizing many drawn with
      | zero => exact absurd rfl decides
      | succ few again =>
        obtain ⟨many, rfl⟩ : ∃ m, many = m + 1 := ⟨many - 1, by omega⟩
        refine sample_bind_agree ih (fun decided after decides => ?_) decides
        cases decided with
        | none => exact again many after (by omega) decides
        | some a => rfl
    exact loop source.attempts attempts drawn more decides

theorem Made.yields (made : s.Made faults) {words : WordStream} {attempts drawn drawn' : Nat}
    {outcome : Except Fault α} (sampled : s.sample ⟨words, attempts⟩ drawn = (outcome, drawn'))
    (decided : outcome ≠ .error .undecided) : s.Yields words drawn outcome drawn' := by
  refine ⟨decided, attempts, fun more le => ?_⟩
  have here : s.Decides ⟨words, attempts⟩ drawn := by rwa [Decides, sampled]
  exact (made.sample_of_more le here).trans sampled

/-- A draw cannot end in two ways. -/
theorem Yields.unique {words : WordStream} {drawn drawn' drawn'' : Nat}
    {outcome other : Except Fault α} (h : s.Yields words drawn outcome drawn')
    (h' : s.Yields words drawn other drawn'') : outcome = other ∧ drawn' = drawn'' := by
  obtain ⟨few, settled⟩ := h.settled
  obtain ⟨few', settled'⟩ := h'.settled
  have one := settled (max few few') (le_max_left _ _)
  exact Prod.mk.inj (one.symm.trans (settled' _ (le_max_right _ _)))

theorem made_uniform : uniform.Made faults := .bind .word fun _ => .pure _

theorem made_openUniform : openUniform.Made faults := .bind .word fun _ => .pure _

theorem made_tail (fns : Elementary) (left : Bool) : (Normal.tail fns left).Made faults := by
  have attempt : (Normal.tailAttempt fns).Made faults :=
    made_openUniform.bind fun _ => made_openUniform.bind fun _ => .pure _
  exact .bind (.untilDecided attempt) fun _ => .pure _

theorem made_normal (fns : Elementary) : (normal fns).Made faults := by
  refine .untilDecided (.bind .word fun word => ?_)
  dsimp only
  split
  · exact .pure _
  · split
    · exact (made_tail fns _).bind fun _ => .pure _
    · exact made_uniform.bind fun _ => .pure _

theorem made_bernoulli (p : Float) : (bernoulli p).Made [.invalidProbability] := by
  unfold bernoulli
  split
  · exact .pure true
  · dsimp only
    split
    · exact .bind .word fun _ => .pure _
    · exact .throw List.mem_cons_self

/-- A Bernoulli draw succeeds if its probability is between zero and one, and else it fails
without drawing a word. -/
theorem sample_bernoulli (p : Float) (source : Source) (drawn : Nat) :
    (0 ≤ p ∧ p ≤ 1 ∧ ∃ outcome drawn', (bernoulli p).sample source drawn = (.ok outcome, drawn')) ∨
      ¬ (0 ≤ p ∧ p ≤ 1) ∧
        (bernoulli p).sample source drawn = (.error .invalidProbability, drawn) := by
  by_cases certain : (p == 1) = true
  · have one : Double.value p = some 1 := Double.value_of_beq certain Double.value_one
    refine .inl ⟨(Double.le_iff_value Double.value_zero one).mpr (by norm_num),
      (Double.le_iff_value one Double.value_one).mpr le_rfl, true, drawn, ?_⟩
    rw [bernoulli, if_pos certain]
    rfl
  · by_cases inside : 0 ≤ p ∧ p < 1
    · refine .inl ⟨inside.1, Double.le_of_lt inside.2, ?_⟩
      rw [bernoulli, if_neg certain]
      simp only [if_pos inside]
      exact ⟨_, _, rfl⟩
    · have outside : ¬ (0 ≤ p ∧ p ≤ 1) := by
        rintro ⟨nonneg, le⟩
        rcases Double.beq_or_lt_of_le le with eq | lt
        · exact certain eq
        · exact inside ⟨nonneg, lt⟩
      refine .inr ⟨outside, ?_⟩
      rw [bernoulli, if_neg certain]
      simp only [if_neg inside]
      rfl

end Sampler

namespace Distribution

theorem made_reward (fns : Elementary) (distribution : Distribution) :
    (distribution.reward fns).Made [.invalidProbability] := by
  cases distribution with
  | gaussian mean deviation => exact (Sampler.made_normal fns).bind fun _ => .pure _
  | bernoulli p => exact (Sampler.made_bernoulli p).bind fun _ => .pure _

/-- A normal draw does not fail. -/
theorem not_yields_gaussian (fns : Elementary) (mean deviation : Float) {words : WordStream}
    {drawn drawn' : Nat} {cause : Fault} :
    ¬ ((gaussian mean deviation).reward fns).Yields words drawn (.error cause) drawn' := by
  rintro ⟨decided, few, settled⟩
  have made : ((gaussian mean deviation).reward fns).Made [] :=
    (Sampler.made_normal fns).bind fun _ => .pure _
  obtain none | undecided := made.fault (settled few le_rfl)
  · cases none
  · exact decided (congrArg Except.error undecided)

/-- A Bernoulli arm yields zero or one if its probability is between them, and else it fails
without drawing a word. The attempts do not matter. -/
theorem sample_reward_bernoulli (fns : Elementary) (p : Float) (source : Source) (drawn : Nat) :
    (0 ≤ p ∧ p ≤ 1 ∧ ∃ reward drawn', (reward = 0 ∨ reward = 1) ∧
      ((bernoulli p).reward fns).sample source drawn = (.ok reward, drawn')) ∨
    ¬ (0 ≤ p ∧ p ≤ 1) ∧
      ((bernoulli p).reward fns).sample source drawn = (.error .invalidProbability, drawn) := by
  rw [reward, Sampler.sample_bind]
  rcases Sampler.sample_bernoulli p source drawn with
    ⟨nonneg, le, outcome, drawn', sampled⟩ | ⟨outside, sampled⟩
  · rw [sampled]
    refine .inl ⟨nonneg, le, if outcome then 1 else 0, drawn', ?_, rfl⟩
    cases outcome with
    | false => exact .inl rfl
    | true => exact .inr rfl
  · rw [sampled]
    exact .inr ⟨outside, rfl⟩

theorem yields_bernoulli (fns : Elementary) (p : Float) (words : WordStream) (drawn : Nat) :
    (0 ≤ p ∧ p ≤ 1 ∧ ∃ reward drawn', (reward = 0 ∨ reward = 1) ∧
      ((bernoulli p).reward fns).Yields words drawn (.ok reward) drawn') ∨
    ¬ (0 ≤ p ∧ p ≤ 1) ∧
      ((bernoulli p).reward fns).Yields words drawn (.error .invalidProbability) drawn := by
  have made := made_reward fns (.bernoulli p)
  rcases sample_reward_bernoulli fns p ⟨words, 0⟩ drawn with
    ⟨nonneg, le, reward, drawn', binary, sampled⟩ | ⟨outside, sampled⟩
  · exact .inl ⟨nonneg, le, reward, drawn', binary, made.yields sampled (by simp)⟩
  · exact .inr ⟨outside, made.yields sampled (by simp)⟩

theorem decides_bernoulli (fns : Elementary) (p : Float) (source : Source) (drawn : Nat) :
    ((bernoulli p).reward fns).Decides source drawn := by
  rcases sample_reward_bernoulli fns p source drawn with
    ⟨-, -, reward, drawn', -, sampled⟩ | ⟨-, sampled⟩ <;> simp [Sampler.Decides, sampled]

theorem returns_bernoulli (fns : Elementary) (p : Float) (words : WordStream) (drawn : Nat) :
    ((bernoulli p).reward fns).Returns words drawn := by
  rcases yields_bernoulli fns p words drawn with ⟨-, -, reward, drawn', -, yields⟩ | ⟨-, yields⟩
  · exact ⟨_, _, yields⟩
  · exact ⟨_, _, yields⟩

end Distribution

end UpperConfidence
