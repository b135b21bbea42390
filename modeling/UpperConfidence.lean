import UpperConfidence.Algorithm.Name
import UpperConfidence.Arm.Set
import UpperConfidence.Bandit.Event
import UpperConfidence.Bandit.OneShot
import UpperConfidence.Bandit.Summary
import UpperConfidence.Decimal.Places
import UpperConfidence.Elementary
import UpperConfidence.Parameter
import UpperConfidence.Score.Bernoulli
import UpperConfidence.Testbed.Run
import UpperConfidence.Values.FirstMaximum
import UpperConfidence.Values.Mask
import UpperConfidence.Values.Scatter
import UpperConfidence.Values.Sum
import UpperConfidence.Proofs.Double.Parts
import UpperConfidence.Proofs.Double.Rounding
import UpperConfidence.Proofs.Double.Arithmetic
import UpperConfidence.Proofs.Double.Magnitude
import UpperConfidence.Proofs.Arm.Positions
import UpperConfidence.Proofs.Arm.Rename
import UpperConfidence.Proofs.Bandit.Assignment
import UpperConfidence.Proofs.Bandit.History
import UpperConfidence.Proofs.Bandit.Outcome
import UpperConfidence.Proofs.Bandit.Invariant
import UpperConfidence.Proofs.Bandit.Ingestion
import UpperConfidence.Proofs.Score.Formula
import UpperConfidence.Proofs.Double.Value
import UpperConfidence.Proofs.Double.Integer
import UpperConfidence.Proofs.Double.Tame
import UpperConfidence.Proofs.Random.Faults
import UpperConfidence.Proofs.Values.Counting
import UpperConfidence.Proofs.Values.FirstMaximum
import UpperConfidence.Proofs.Bandit.Accepted
import UpperConfidence.Proofs.Bandit.Column
import UpperConfidence.Proofs.Bandit.Transfer
import UpperConfidence.Proofs.Bandit.Pooling
import UpperConfidence.Proofs.Score.Unplayed
import UpperConfidence.Proofs.Testbed.Replay
import UpperConfidence.Proofs.Testbed.Exploration
import UpperConfidence.Proofs.Bandit.Lockstep
import UpperConfidence.Proofs.Bandit.Disjoint
import UpperConfidence.Proofs.Bandit.Tally
import UpperConfidence.Proofs.Values.Exact
import UpperConfidence.Proofs.Double.Order
import UpperConfidence.Proofs.Double.Nearest
import UpperConfidence.Proofs.Double.Operation
import UpperConfidence.Proofs.Double.Close
import UpperConfidence.Proofs.Bandit.Reorder
import UpperConfidence.Proofs.Score.Number
import UpperConfidence.Proofs.Score.Standalone
import UpperConfidence.Proofs.Score.Variance
import UpperConfidence.Proofs.Bandit.Choice
import UpperConfidence.Proofs.Bandit.Singleton
import UpperConfidence.Proofs.Score.SelfSquared
import UpperConfidence.Proofs.Bandit.Rename
import UpperConfidence.Proofs.Algorithm.Name
import UpperConfidence.Proofs.Arm.Bijection
import UpperConfidence.Proofs.Values.Lossless
