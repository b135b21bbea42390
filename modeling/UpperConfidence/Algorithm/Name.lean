import UpperConfidence.Failure

/-!
# Loose names of algorithms

A name may be written in any mixture of cases and with hyphens, underscores
and spaces anywhere. What is left after dropping the separators and folding the
case has to be one of the accepted words.
-/

namespace UpperConfidence.Algorithm

/-- Characters that a name may contain anywhere. -/
def isSeparator (c : Char) : Bool := c = '_' || c = '-' || c = ' '

/-- The lower case of a character. Outside ASCII only the Kelvin sign and the
dotted capital I have a lower case with an ASCII letter in it; every other
character there stands for itself, since no accepted word has one. -/
def foldCase (c : Char) : List Char :=
  if c = '\u212a' then ['k']
  else if c = '\u0130' then ['i', '\u0307']
  else [c.toLower]

/-- A name without separators and without differences of case. -/
def normalize (name : String) : List Char :=
  (name.toList.filter (!isSeparator ·)).flatMap foldCase

/-- The accepted words. -/
def words : List (String × Algorithm) :=
  [("ucb1", .ucb1),
   ("ucbtuned", .tuned), ("tuned", .tuned),
   ("ucbtunedbernoulli", .tunedBernoulli), ("tunedbernoulli", .tunedBernoulli),
   ("metricucb", .metric), ("metric", .metric)]

/-- The algorithm whose word `name` is a loose form of. -/
def ofName? (name : String) : Option Algorithm :=
  (words.find? fun word => word.1.toList = normalize name).map (·.2)

/-- The algorithm of a loose name; an unknown name is reported as it was given. -/
def ofName (name : String) : Except Rejection Algorithm :=
  match ofName? name with
  | some algorithm => .ok algorithm
  | none => .error (.unknownAlgorithm name)

theorem ofName?_displayName (a : Algorithm) : ofName? a.displayName = some a := by
  cases a <;> decide

end UpperConfidence.Algorithm
