import Downhill.Journal.Registry
import Downhill.Optimizer.Basic
import Downhill.Ranking
import Downhill.Sample.Chain
import Downhill.Search.Fields
import Downhill.Session.Script
import Downhill.Proofs.Pool.Canonicity
import Downhill.Proofs.Pool.Memory
import Downhill.Proofs.Meaning.Evaluation
import Downhill.Proofs.Term.Independence
import Downhill.Proofs.Real.Gradient
import Downhill.Proofs.Search.Outcomes
import Downhill.Proofs.Search.Descent
import Downhill.Proofs.Search.Streaks
import Downhill.Proofs.Search.Backtracking
import Downhill.Proofs.Search.Domain
import Downhill.Proofs.Meaning.Batch
import Downhill.Proofs.Real.Differentiability
import Downhill.Proofs.Real.Absence
import Downhill.Proofs.Meaning.Powers
import Downhill.Proofs.Meaning.Sharing
import Downhill.Proofs.Meaning.Support
import Downhill.Proofs.Rational.Quadratic
import Downhill.Proofs.Pool.Cost
import Downhill.Proofs.Search.Stalling
import Downhill.Proofs.Scalar.Exact
import Downhill.Proofs.Search.Armijo
import Downhill.Proofs.Search.Clamping
import Downhill.Proofs.Term.Histories
import Downhill.Proofs.Pool.Liveness
import Downhill.Proofs.Session.Validity
import Downhill.Proofs.Session.Atomicity
import Downhill.Proofs.Real.Objectives
import Downhill.Proofs.Term.Variables
import Downhill.Proofs.Sample.Chain
import Downhill.Proofs.Decimal.Interval
import Downhill.Proofs.Decimal.Shortest
import Downhill.Proofs.Term.Legibility
import Downhill.Proofs.Decimal.Decoding
import Downhill.Proofs.Decimal.Numeral
import Downhill.Proofs.Term.Unambiguity
import Downhill.Proofs.Pool.Exploration
import Downhill.Proofs.Search.Acceptance
import Downhill.Proofs.Journal.Fields
import Downhill.Proofs.Journal.Uniformity
import Downhill.Proofs.Decimal.Nearest
import Downhill.Proofs.Term.Grammar
import Downhill.Proofs.Term.Reading
import Downhill.Proofs.Term.Faithfulness
