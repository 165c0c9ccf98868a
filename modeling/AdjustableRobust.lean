import AdjustableRobust.Report.Exchange
import AdjustableRobust.Report.Solver
import AdjustableRobust.Scalar.Binary64
import AdjustableRobust.Scalar.Extended
import AdjustableRobust.Decimal.Format
import AdjustableRobust.Json.Reader
import AdjustableRobust.Conic.Dual
import AdjustableRobust.Expression.Uncertain
import AdjustableRobust.Uncertainty.Generator
import AdjustableRobust.Robust.Solution
import AdjustableRobust.Solver.InteriorPoint
import AdjustableRobust.Solver.Lifecycle
import AdjustableRobust.Solver.Replay
import AdjustableRobust.Lifting.Compiler
import AdjustableRobust.Exchange.Policies
import AdjustableRobust.Exchange.Reading
import AdjustableRobust.Exchange.Words
import AdjustableRobust.Configuration
import AdjustableRobust.Diagnostics
import AdjustableRobust.ModelError
import AdjustableRobust.Expression.Conic
import AdjustableRobust.Objective
import AdjustableRobust.Proofs.Policy.Build
import AdjustableRobust.Proofs.Policy.Rules
import AdjustableRobust.Proofs.Policy.NormBall
import AdjustableRobust.Proofs.Policy.Ownership
import AdjustableRobust.Proofs.Policy.Emission
import AdjustableRobust.Proofs.Expression.Substitution
import AdjustableRobust.Proofs.Keeping
import AdjustableRobust.Proofs.Lifting.Alternatives
import AdjustableRobust.Proofs.Lifting.Box
import AdjustableRobust.Proofs.Lifting.Collection
import AdjustableRobust.Proofs.Lifting.Projection
import AdjustableRobust.Proofs.Lifting.BoxExactness
import AdjustableRobust.Proofs.Lifting.Soundness
import AdjustableRobust.Proofs.Lifting.Policies
import AdjustableRobust.Proofs.Lifting.Duals
import AdjustableRobust.Proofs.Policy.ReadBack
import AdjustableRobust.Proofs.Solver.Lifecycle
import AdjustableRobust.Proofs.Policy.Expectation
import AdjustableRobust.Proofs.Robust.Wiring
import AdjustableRobust.Proofs.Robust.Distribution
import AdjustableRobust.Proofs.Robust.Edits
import AdjustableRobust.Proofs.Lifting.Dominance
import AdjustableRobust.Proofs.Duality.Renaming
import AdjustableRobust.Proofs.Policy.Agreement
import AdjustableRobust.Proofs.Solver.ConeRows
import AdjustableRobust.Proofs.Solver.InStep
import AdjustableRobust.Proofs.Solver.StandardForm
import AdjustableRobust.Proofs.Solver.Multipliers
import AdjustableRobust.Proofs.Failure
import AdjustableRobust.Proofs.Lifting.Causes
import AdjustableRobust.Proofs.Lifting.Stages
import AdjustableRobust.Proofs.Policy.Causes
import AdjustableRobust.Proofs.Policy.Equality
import AdjustableRobust.Proofs.Policy.Mean
import AdjustableRobust.Proofs.Store.Families
import AdjustableRobust.Proofs.Solver.Hierarchy
import AdjustableRobust.Proofs.Policy.Appends
import AdjustableRobust.Proofs.Policy.Residue
import AdjustableRobust.Proofs.Lifting.Expectation
import AdjustableRobust.Proofs.Lifting.Placement
import AdjustableRobust.Proofs.Lifting.Leftovers
import AdjustableRobust.Proofs.Conic.Storing
import AdjustableRobust.Proofs.Uncertainty.ActiveSums
import AdjustableRobust.Proofs.Lifting.Induced
import AdjustableRobust.Proofs.Checked
import AdjustableRobust.Proofs.Lifting.Checks
import AdjustableRobust.Proofs.Lifting.Safety
import AdjustableRobust.Proofs.Uncertainty.Membership
import AdjustableRobust.Proofs.Uncertainty.Sampling
import AdjustableRobust.Proofs.Expression.Images
import AdjustableRobust.Proofs.Expression.Enclosure
import AdjustableRobust.Proofs.Lifting.Percentiles
import AdjustableRobust.Proofs.Lifting.Representation
import AdjustableRobust.Proofs.Exchange.Realizations
import AdjustableRobust.Proofs.Exchange.Policies
import AdjustableRobust.Proofs.Expression.CanonicalForm
import AdjustableRobust.Proofs.Expression.MergeTable
import AdjustableRobust.Proofs.Lifting.OutsideMass
