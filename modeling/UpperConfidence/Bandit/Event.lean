import UpperConfidence.Bandit.Operation

/-!
# Events

What a bandit reports while it works: that it was made, that a batch was
accepted and is being added, and which arm it chose. Choices are reported at
the finer of the two levels only. A batch is reported once it fits, even if the
number of observations then overflows.
-/

namespace UpperConfidence

/-- How finely events are reported. -/
inductive Level where
  | debug
  | trace
  deriving DecidableEq, Repr

namespace Level

def label : Level → String
  | .debug => "DEBUG"
  | .trace => "TRACE"

/-- Whether a report at level `threshold` includes an event at `level`. -/
def includes : (threshold level : Level) → Bool
  | .trace, _ => true
  | .debug, level => level = .debug

end Level

/-- Something that a bandit reports. -/
inductive Event where
  | created (algorithm : Algorithm) (arms : Nat)
  | addingBatch (length arms : Nat)
  | chose (arm : ArmId) (score : Float)
  deriving DecidableEq

namespace Event

def level : Event → Level
  | .created .. | .addingBatch .. => .debug
  | .chose .. => .trace

def message : Event → String
  | .created algorithm arms => s!"created {algorithm.displayName} bandit with {arms} arms"
  | .addingBatch length arms => s!"adding batch of observations for {length} of {arms} arms"
  | .chose arm score => s!"chose arm {arm.text} with score {Decimal.shortest score}"

/-- The line of an event in a report. -/
def line (e : Event) : String := e.level.label ++ " " ++ e.message

end Event

/-- The lines of the events that a report at level `threshold` includes. -/
def Level.report (threshold : Level) (events : List Event) : List String :=
  (events.filter fun e => threshold.includes e.level).map Event.line

namespace Bandit

def creationEvents (b : Bandit) : List Event := [.created b.algorithm b.size]

def operationEvents (b : Bandit) : Operation → List Event
  | .batch batch =>
    match b.batchContribution batch with
    | .ok _ => [.addingBatch batch.counts.length b.size]
    | .error _ => []
  | .single .. => []

def actionEvents (b : Bandit) (ln : Float → Float) : List Event :=
  (b.choice? ln).toList.map fun (arm, score) => .chose arm score

end Bandit

end UpperConfidence
