import Mathlib
import UpperConfidence.Algorithm.Name

/-!
# The language of loose names

A name is accepted if it can be made from one of the accepted words by changing the case of
ASCII letters and by putting in separators, and it stands for the algorithm of that word. No
name is made from two words. A character outside ASCII never gets a name accepted, however
texts are brought into lower case: there is always something in its lower case that no
accepted word has.
-/

namespace UpperConfidence.Algorithm

/-! ## Lower case in Unicode -/

/-- What Unicode says of the lower case of a character. It is never empty, and outside ASCII only
two characters have an ASCII letter or digit in it. -/
structure IsLowerCase (c : Char) (lower : List Char) : Prop where
  ascii : c.toNat < 128 → lower = [c.toLower]
  kelvin : c = '\u212a' → lower = ['k']
  dotted : c = '\u0130' → lower = ['i', '\u0307']
  other : 128 ≤ c.toNat → c ≠ '\u212a' → c ≠ '\u0130' →
    lower ≠ [] ∧ ∀ d ∈ lower, d.isAlphanum = false

/-- A function that brings texts into lower case. What becomes of a character may depend on the
characters around it, as it does for the Greek sigma. -/
def IsLowering (lower : List Char → List Char) : Prop :=
  ∀ text, ∃ parts, List.Forall₂ IsLowerCase text parts ∧ lower text = parts.flatten

/-- What is found in accepted words. The only letter in the lower case of the Kelvin sign is in
none of them. -/
def isPlain (c : Char) : Bool := c.isAlphanum && c != 'k'

theorem isPlain_of_mem_words {word : String × Algorithm} (mem : word ∈ words) :
    ∀ c ∈ word.1.toList, isPlain c = true := by
  have all : (words.all fun word => word.1.toList.all isPlain) = true := by decide
  exact List.all_eq_true.mp (List.all_eq_true.mp all word mem)

theorem toNat_of_isAlphanum {c : Char} (h : c.isAlphanum = true) :
    48 ≤ c.toNat ∧ c.toNat < 128 := by
  simp only [Char.isAlphanum, Char.isAlpha, Char.isUpper, Char.isLower, Char.isDigit,
    Bool.or_eq_true, Bool.and_eq_true, decide_eq_true_eq, UInt32.le_iff_toNat_le, ge_iff_le] at h
  change ((65 ≤ c.toNat ∧ c.toNat ≤ 90) ∨ (97 ≤ c.toNat ∧ c.toNat ≤ 122)) ∨
    (48 ≤ c.toNat ∧ c.toNat ≤ 57) at h
  omega

theorem toNat_of_isSeparator {c : Char} (h : isSeparator c = true) :
    32 ≤ c.toNat ∧ c.toNat < 128 := by
  simp only [isSeparator, Bool.or_eq_true, decide_eq_true_eq] at h
  rcases h with (rfl | rfl) | rfl <;> decide

/-- Only a letter or a digit becomes one by a change of case. -/
theorem isAlphanum_of_toLower {c : Char} (h : c.toLower.isAlphanum = true) :
    c.isAlphanum = true := by
  by_cases upper : c.isUpper = true
  · simp [Char.isAlphanum, Char.isAlpha, upper]
  · rwa [Char.toLower_eq_of_not_isUpper upper] at h

theorem isLowerCase_foldCase (c : Char) : IsLowerCase c (foldCase c) where
  ascii small := by
    have kelvin : c ≠ '\u212a' := by
      rintro rfl
      exact absurd small (by decide)
    have dotted : c ≠ '\u0130' := by
      rintro rfl
      exact absurd small (by decide)
    rw [foldCase, if_neg kelvin, if_neg dotted]
  kelvin := by
    rintro rfl
    rfl
  dotted := by
    rintro rfl
    rfl
  other large kelvin dotted := by
    rw [foldCase, if_neg kelvin, if_neg dotted]
    refine ⟨by simp, fun d mem => ?_⟩
    rw [List.mem_singleton.mp mem, Bool.eq_false_iff]
    intro alphanum
    have small := toNat_of_isAlphanum (isAlphanum_of_toLower alphanum)
    omega

/-- Folding one character after the other brings a text into lower case. -/
theorem isLowering_flatMap_foldCase : IsLowering (·.flatMap foldCase) := by
  intro text
  refine ⟨text.map foldCase, ?_, List.flatMap_def⟩
  rw [List.forall₂_map_right_iff, List.forall₂_same]
  exact fun c _ => isLowerCase_foldCase c

/-- A lower case that could be part of an accepted word is the one of an ASCII character. -/
theorem IsLowerCase.eq_of_isPlain {c : Char} {lower : List Char} (h : IsLowerCase c lower)
    (plain : ∀ d ∈ lower, isPlain d = true) : lower = [c.toLower] := by
  by_cases small : c.toNat < 128
  · exact h.ascii small
  by_cases kelvin : c = '\u212a'
  · have := plain 'k' (by simp [h.kelvin kelvin])
    cases this
  by_cases dotted : c = '\u0130'
  · have := plain '\u0307' (by simp [h.dotted dotted])
    cases this
  obtain ⟨nonempty, strange⟩ := h.other (by omega) kelvin dotted
  obtain ⟨d, mem⟩ := List.exists_mem_of_ne_nil lower nonempty
  have := plain d mem
  simp [isPlain, strange d mem] at this

/-- Conversely, an ASCII character has no other lower case. -/
theorem IsLowerCase.eq_of_isPlain_toLower {c : Char} {lower : List Char} (h : IsLowerCase c lower)
    (plain : isPlain c.toLower = true) : lower = [c.toLower] := by
  have alphanum : c.toLower.isAlphanum = true := (Bool.and_eq_true_iff.mp plain).1
  exact h.ascii (toNat_of_isAlphanum (isAlphanum_of_toLower alphanum)).2

/-- A text has an accepted word for its lower case only by its ASCII letters. -/
theorem flatten_eq_iff {text word : List Char} {parts : List (List Char)}
    (h : List.Forall₂ IsLowerCase text parts) (plain : ∀ c ∈ word, isPlain c = true) :
    parts.flatten = word ↔ text.map Char.toLower = word := by
  -- one character and its part at a time: what is left of the word is plain again
  constructor
  · rintro rfl
    induction h with
    | nil => rfl
    | cons here _ ih =>
      rw [List.flatten_cons] at plain ⊢
      obtain ⟨first, rest⟩ := List.forall_mem_append.mp plain
      rw [List.map_cons, ih rest, here.eq_of_isPlain first, List.singleton_append]
  · rintro rfl
    induction h with
    | nil => rfl
    | cons here _ ih =>
      obtain ⟨first, rest⟩ := List.forall_mem_cons.mp plain
      rw [List.flatten_cons, ih rest, here.eq_of_isPlain_toLower first, List.map_cons,
        List.singleton_append]

/-! ## Loose forms -/

/-- One change that makes a text looser, or the same in another case. -/
inductive Loosening : List Char → List Char → Prop where
  | recase (before after : List Char) {c d : Char} (same : c.toLower = d.toLower) :
      Loosening (before ++ c :: after) (before ++ d :: after)
  | insert (before after : List Char) {c : Char} (separator : isSeparator c = true) :
      Loosening (before ++ after) (before ++ c :: after)

/-- What is made from a text by such changes. -/
abbrev LooseForm : List Char → List Char → Prop := Relation.ReflTransGen Loosening

/-- A text without separators and without capital ASCII letters. -/
def bare (text : List Char) : List Char := (text.filter (!isSeparator ·)).map Char.toLower

@[simp] theorem bare_append (s t : List Char) : bare (s ++ t) = bare s ++ bare t := by
  simp [bare]

theorem bare_cons (c : Char) (text : List Char) :
    bare (c :: text) = if isSeparator c then bare text else c.toLower :: bare text := by
  by_cases separator : isSeparator c = true <;> simp [bare, separator]

theorem not_isSeparator_of_isAlphanum {c : Char} (h : c.isAlphanum = true) :
    isSeparator c = false := by
  rw [Bool.eq_false_iff]
  intro separator
  simp only [isSeparator, Bool.or_eq_true, decide_eq_true_eq] at separator
  rcases separator with (rfl | rfl) | rfl <;> cases h

@[simp] theorem isSeparator_toLower (c : Char) : isSeparator c.toLower = isSeparator c := by
  by_cases upper : c.isUpper = true
  · have letter : c.isAlpha = true := by simp [Char.isAlpha, upper]
    have alphanum : c.isAlphanum = true := by simp [Char.isAlphanum, letter]
    have alphanum' : c.toLower.isAlphanum = true := by simp [Char.isAlphanum, letter]
    rw [not_isSeparator_of_isAlphanum alphanum, not_isSeparator_of_isAlphanum alphanum']
  · rw [Char.toLower_eq_of_not_isUpper upper]

/-- A loose text has the same letters and digits in it, in the same order. -/
theorem Loosening.bare_eq {s t : List Char} (h : Loosening s t) : bare s = bare t := by
  cases h with
  | @recase _ _ c d same =>
    have separators : isSeparator c = isSeparator d := by
      rw [← isSeparator_toLower c, same, isSeparator_toLower]
    rw [bare_append, bare_append, bare_cons, bare_cons, separators, same]
  | insert _ _ separator => rw [bare_append, bare_append, bare_cons, if_pos separator]

theorem LooseForm.bare_eq {s t : List Char} (h : LooseForm s t) : bare s = bare t := by
  induction h with
  | refl => rfl
  | tail _ last ih => exact ih.trans last.bare_eq

theorem Loosening.cons (c : Char) {s t : List Char} (h : Loosening s t) :
    Loosening (c :: s) (c :: t) := by
  cases h with
  | recase before after same => exact .recase (c :: before) after same
  | insert before after separator => exact .insert (c :: before) after separator

/-- Every text is a loose form of what it is without separators and capitals. -/
theorem looseForm_bare (text : List Char) : LooseForm (bare text) text := by
  induction text with
  | nil => exact .refl
  | cons c text ih =>
    rw [bare_cons]
    by_cases separator : isSeparator c = true
    · rw [if_pos separator]
      exact ih.tail (.insert [] text separator)
    · rw [if_neg separator]
      have recased : Loosening (c.toLower :: bare text) (c :: bare text) :=
        .recase [] (bare text) (Char.toLower_toLower_eq_toLower c)
      exact .head recased (ih.lift (c :: ·) fun _ _ => Loosening.cons c)

/-! ## Accepted names -/

theorem bare_of_mem_words : ∀ word ∈ words, bare word.1.toList = word.1.toList := by
  decide

/-- No word is in the list twice. -/
theorem eq_of_mem_words :
    ∀ word ∈ words, ∀ other ∈ words, word.1.toList = other.1.toList → word = other := by
  decide

/-- The algorithm of a loose name, where texts are brought into lower case by `lower`. -/
def ofNameBy (lower : List Char → List Char) (name : String) : Except Rejection Algorithm :=
  match words.find? fun word => word.1.toList = lower (name.toList.filter (!isSeparator ·)) with
  | some word => .ok word.2
  | none => .error (.unknownAlgorithm name)

theorem ofName_eq_ofNameBy (name : String) : ofName name = ofNameBy (·.flatMap foldCase) name := by
  unfold ofName ofName? ofNameBy normalize
  cases words.find? fun word =>
    word.1.toList = (name.toList.filter (!isSeparator ·)).flatMap foldCase <;> rfl

theorem looseForm_iff_bare {word : String × Algorithm} (mem : word ∈ words) (text : List Char) :
    LooseForm word.1.toList text ↔ bare text = word.1.toList := by
  constructor
  · intro loose
    rw [← loose.bare_eq, bare_of_mem_words word mem]
  · intro same
    rw [← same]
    exact looseForm_bare text

/-- A text is a loose form of one word at most. -/
theorem eq_of_looseForm {word other : String × Algorithm} (mem : word ∈ words)
    (mem' : other ∈ words) {text : List Char} (loose : LooseForm word.1.toList text)
    (loose' : LooseForm other.1.toList text) : word = other := by
  rw [looseForm_iff_bare mem] at loose
  rw [looseForm_iff_bare mem'] at loose'
  exact eq_of_mem_words word mem other mem' (loose.symm.trans loose')

section Lowering

variable {lower : List Char → List Char} (unicode : IsLowering lower) {name : String}
  {a : Algorithm}
include unicode

theorem IsLowering.eq_iff_looseForm {word : String × Algorithm} (mem : word ∈ words)
    (text : List Char) :
    word.1.toList = lower (text.filter (!isSeparator ·)) ↔ LooseForm word.1.toList text := by
  obtain ⟨parts, each, lowered⟩ := unicode (text.filter (!isSeparator ·))
  rw [looseForm_iff_bare mem, lowered, eq_comm, flatten_eq_iff each (isPlain_of_mem_words mem),
    bare]

/-- A loose form of a word stands for its algorithm, and there are no other names. -/
theorem ofNameBy_cases (name : String) :
    (∃ word ∈ words, LooseForm word.1.toList name.toList ∧ ofNameBy lower name = .ok word.2) ∨
      (∀ word ∈ words, ¬ LooseForm word.1.toList name.toList) ∧
        ofNameBy lower name = .error (.unknownAlgorithm name) := by
  cases found : words.find? fun word =>
      word.1.toList = lower (name.toList.filter (!isSeparator ·)) with
  | some word =>
    have mem := List.mem_of_find?_eq_some found
    have here : word.1.toList = lower (name.toList.filter (!isSeparator ·)) := by
      simpa using List.find?_some found
    exact .inl ⟨word, mem, (unicode.eq_iff_looseForm mem _).mp here, by rw [ofNameBy, found]⟩
  | none =>
    refine .inr ⟨fun word mem loose => ?_, by rw [ofNameBy, found]⟩
    have here := (unicode.eq_iff_looseForm mem _).mpr loose
    simpa [here] using List.find?_eq_none.mp found word mem

theorem ofNameBy_of_looseForm {word : String × Algorithm} (mem : word ∈ words) {name : String}
    (loose : LooseForm word.1.toList name.toList) : ofNameBy lower name = .ok word.2 := by
  rcases ofNameBy_cases unicode name with ⟨other, mem', loose', accepted⟩ | ⟨none, -⟩
  · rw [accepted, eq_of_looseForm mem mem' loose loose']
  · exact absurd loose (none word mem)

theorem ofNameBy_eq_ok_iff {name : String} {a : Algorithm} : ofNameBy lower name = .ok a ↔
    ∃ word, (word, a) ∈ words ∧ LooseForm word.toList name.toList := by
  constructor
  · intro accepted
    rcases ofNameBy_cases unicode name with ⟨word, mem, loose, accepted'⟩ | ⟨-, rejected⟩
    · obtain rfl := Except.ok.inj (accepted'.symm.trans accepted)
      exact ⟨word.1, mem, loose⟩
    · cases rejected.symm.trans accepted
  · rintro ⟨word, mem, loose⟩
    exact ofNameBy_of_looseForm unicode mem loose

theorem ofNameBy_eq_error_iff {name : String} {cause : Rejection} :
    ofNameBy lower name = .error cause ↔ cause = .unknownAlgorithm name ∧
      ∀ word ∈ words, ¬ LooseForm word.1.toList name.toList := by
  rcases ofNameBy_cases unicode name with ⟨word, mem, loose, accepted⟩ | ⟨none, rejected⟩
  · constructor
    · intro rejected
      cases accepted.symm.trans rejected
    · rintro ⟨-, none⟩
      exact absurd loose (none word mem)
  · rw [rejected, Except.error.injEq, eq_comm]
    exact (and_iff_left none).symm

end Lowering

/-- Outside ASCII, or white space other than the blank: a tab, a line break or a page break. -/
def IsForeign (c : Char) : Prop := 128 ≤ c.toNat ∨ 9 ≤ c.toNat ∧ c.toNat ≤ 13

theorem IsForeign.strange {c : Char} (h : IsForeign c) :
    isSeparator c = false ∧ c.isAlphanum = false := by
  unfold IsForeign at h
  constructor <;> rw [Bool.eq_false_iff]
  · intro separator
    have := toNat_of_isSeparator separator
    omega
  · intro alphanum
    have := toNat_of_isAlphanum alphanum
    omega

/-- Everything in a loose form of a word is a separator, a letter or a digit. -/
theorem not_looseForm_of_isForeign {c : Char} (foreign : IsForeign c) {text : List Char}
    (mem : c ∈ text) {word : String × Algorithm} (accepted : word ∈ words) :
    ¬ LooseForm word.1.toList text := by
  obtain ⟨kept, strange⟩ := foreign.strange
  rw [looseForm_iff_bare accepted]
  intro same
  have here : c.toLower ∈ bare text :=
    List.mem_map_of_mem (List.mem_filter.mpr ⟨mem, by simp [kept]⟩)
  have plain := isPlain_of_mem_words accepted _ (same ▸ here)
  have alphanum := isAlphanum_of_toLower (Bool.and_eq_true_iff.mp plain).1
  cases strange.symm.trans alphanum

/-- The name under which an algorithm is shown is a loose form of one of its words. -/
theorem exists_word_displayName (a : Algorithm) :
    ∃ word ∈ words, word.2 = a ∧ LooseForm word.1.toList a.displayName.toList := by
  have shown : ∃ word ∈ words, word.2 = a ∧ bare a.displayName.toList = word.1.toList := by
    cases a <;> decide
  obtain ⟨word, mem, algorithm, same⟩ := shown
  exact ⟨word, mem, algorithm, (looseForm_iff_bare mem _).mpr same⟩

/-- A change of case and a separator do not make a loose form of a word from another text. -/
theorem Loosening.looseForm_iff {s t : List Char} (h : Loosening s t) {word : String × Algorithm}
    (mem : word ∈ words) : LooseForm word.1.toList t ↔ LooseForm word.1.toList s := by
  rw [looseForm_iff_bare mem, looseForm_iff_bare mem, h.bare_eq]

/-- A name is accepted if and only if it is a loose form of a word, of which there is one at most.
Every other name is reported as it is. This holds for every way to bring texts into lower case. -/
theorem accepts_loose_forms {lower : List Char → List Char} (unicode : IsLowering lower)
    (name : String) :
    ofName name = ofNameBy lower name ∧
    (∀ a, ofName name = .ok a ↔ ∃ word, (word, a) ∈ words ∧ LooseForm word.toList name.toList) ∧
    (∀ word ∈ words, ∀ other ∈ words, LooseForm word.1.toList name.toList →
      LooseForm other.1.toList name.toList → word = other) ∧
    (∀ cause, ofName name = .error cause ↔ cause = .unknownAlgorithm name ∧
      ∀ word ∈ words, ¬ LooseForm word.1.toList name.toList) ∧
    ((∃ c ∈ name.toList, IsForeign c) → ofName name = .error (.unknownAlgorithm name)) ∧
    (∀ other : String, Loosening name.toList other.toList →
      ∀ a, ofName other = .ok a ↔ ofName name = .ok a) ∧
    (∀ a : Algorithm, LooseForm a.displayName.toList name.toList → ofName name = .ok a) := by
  have folding := isLowering_flatMap_foldCase
  simp only [ofName_eq_ofNameBy]
  refine ⟨?_, fun a => ofNameBy_eq_ok_iff folding,
    fun word mem other mem' => eq_of_looseForm mem mem',
    fun cause => ofNameBy_eq_error_iff folding, ?_, ?_, ?_⟩
  · rcases ofNameBy_cases unicode name with ⟨word, mem, loose, accepted⟩ | ⟨none, rejected⟩
    · rw [accepted, ofNameBy_of_looseForm folding mem loose]
    · rw [rejected, ofNameBy_eq_error_iff folding]
      exact ⟨rfl, none⟩
  · rintro ⟨c, mem, foreign⟩
    rw [ofNameBy_eq_error_iff folding]
    exact ⟨rfl, fun word accepted => not_looseForm_of_isForeign foreign mem accepted⟩
  · intro other loosening a
    rw [ofNameBy_eq_ok_iff folding, ofNameBy_eq_ok_iff folding]
    exact exists_congr fun word => and_congr_right fun mem => loosening.looseForm_iff mem
  · intro a loose
    obtain ⟨word, mem, rfl, shown⟩ := exists_word_displayName a
    exact ofNameBy_of_looseForm folding mem (shown.trans loose)

/-- A dotted capital I is not taken for a letter, and a blank and an underscore are left out. -/
theorem accepts_loose_forms_of_metric : IsLowering (·.flatMap foldCase) ∧
    ofName "metr\u0130c" = .error (.unknownAlgorithm "metr\u0130c") ∧
    ofName "Metric _UCB" = .ok .metric := by
  have folding := isLowering_flatMap_foldCase
  obtain ⟨-, -, -, -, foreign, -⟩ := accepts_loose_forms folding "metr\u0130c"
  obtain ⟨-, -, -, -, -, -, shown⟩ := accepts_loose_forms folding "Metric _UCB"
  refine ⟨folding, foreign ⟨'\u0130', by decide, .inl (by decide)⟩, shown .metric ?_⟩
  have hyphenated : Loosening "MetricUCB".toList "Metric_UCB".toList :=
    .insert "Metric".toList "UCB".toList rfl
  have spaced : Loosening "Metric_UCB".toList "Metric _UCB".toList :=
    .insert "Metric".toList "_UCB".toList rfl
  exact .tail (.single hyphenated) spaced

end UpperConfidence.Algorithm
